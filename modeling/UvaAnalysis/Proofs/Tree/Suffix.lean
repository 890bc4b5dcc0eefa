import Mathlib.Data.List.Basic
import UvaAnalysis.Tree.Statement

/-!
# Readers take from the front

Whether it succeeds or fails, a reader leaves a suffix of the tokens that it was given, and so does
a grower.  That passes through the ways of putting readers and growers together.
-/

namespace UvaAnalysis

namespace Reader

variable {α β : Type}

/-- The tokens that a reader leaves. -/
def rest (reader : Reader α) (tokens : List Token) : List Token :=
  match reader tokens with
  | .ok _ rest => rest
  | .error _ rest => rest

/-- A reader that always leaves a suffix of what it was given. -/
def LeavesSuffix (reader : Reader α) : Prop :=
  ∀ tokens, reader.rest tokens <:+ tokens

/-- What is left after a success is a suffix of the tokens. -/
lemma LeavesSuffix.of_ok {reader : Reader α} (h : reader.LeavesSuffix) {tokens rest : List Token}
    {a : α} (heq : reader tokens = .ok a rest) : rest <:+ tokens := by
  have hrest := h tokens
  rw [Reader.rest, heq] at hrest
  exact hrest

/-- What is left after a fault is a suffix too: the tokens from the offending one on. -/
lemma LeavesSuffix.of_error {reader : Reader α} (h : reader.LeavesSuffix)
    {tokens rest : List Token} {fault : Fault} (heq : reader tokens = .error fault rest) :
    rest <:+ tokens := by
  have hrest := h tokens
  rw [Reader.rest, heq] at hrest
  exact hrest

/-- A reader that takes nothing leaves everything. -/
lemma leavesSuffix_pure (a : α) : (pure a : Reader α).LeavesSuffix :=
  fun tokens => List.suffix_refl tokens

/-- Of two readers one after the other, the second leaves a suffix of what the first left. -/
lemma LeavesSuffix.bind {reader : Reader α} {next : α → Reader β} (h : reader.LeavesSuffix)
    (hnext : ∀ a, (next a).LeavesSuffix) : (reader >>= next).LeavesSuffix := by
  intro tokens
  rw [rest, bind_apply]
  cases heq : reader tokens with
  | ok a middle => exact (hnext a middle).trans (h.of_ok heq)
  | error fault middle => exact h.of_error heq

end Reader

namespace Tree

/-- A grower that always leaves a suffix of what it was given. -/
def Grower.LeavesSuffix (grower : Grower) : Prop :=
  ∀ tokens, (grower tokens).rest <:+ tokens

open Grower (nothing one silent)

/-- A growth that goes on leaves a suffix of what it had left, since one that stopped at a fault
does not go on. -/
lemma Growth.andThen_rest_suffix (growth : Growth) {next : Grower} (h : next.LeavesSuffix) :
    (growth.andThen next).rest <:+ growth.rest := by
  cases hfault : growth.fault with
  | some fault => exact (andThen_of_fault hfault next).symm ▸ List.suffix_refl growth.rest
  | none =>
    rw [andThen_of_no_fault hfault]
    exact h growth.rest

/-- A grower that takes nothing leaves everything. -/
lemma leavesSuffix_nothing : nothing.LeavesSuffix :=
  fun tokens => List.suffix_refl tokens

/-- A grower that reads one child leaves what its reader leaves. -/
lemma leavesSuffix_one {reader : Reader Tree} (h : reader.LeavesSuffix) :
    (one reader).LeavesSuffix := by
  intro tokens
  rw [one]
  cases heq : reader tokens with
  | ok tree rest => exact h.of_ok heq
  | error fault rest => exact h.of_error heq

/-- So does one that reads without a child, also when the reader fails. -/
lemma leavesSuffix_silent {reader : Reader Unit} (h : reader.LeavesSuffix) :
    (silent reader).LeavesSuffix := by
  intro tokens
  rw [silent]
  cases heq : reader tokens with
  | ok _ rest => exact h.of_ok heq
  | error fault rest => exact h.of_error heq

end Tree

end UvaAnalysis
