import UvaAnalysis.Proofs.Tree.Local.Statement
import UvaAnalysis.Token.Lexer

/-!
# A fault is where it is found

When a stream departs from the grammar, it does so at one of its tokens.  Nothing is wrong with the
tokens before that one, and with it the reading is over: whatever comes after, the tree and the
fault are the same (`parse_fault_final`).  A stream in which no token is wrong has no start in which
one is.

All of that is said first of the growth that a program gives, which has the tokens that are left as
well.  The offending token is the first of those, so the tokens before it are the ones that were
taken.
-/

namespace UvaAnalysis.Tree

/-- What is made of a whole stream. -/
def programGrowth (tokens : List Token) : Growth :=
  program tokens tokens

/-- The fault of a stream is the fault of its program. -/
lemma mem_faults_parse {tokens : List Token} {fault : Fault} :
    fault ∈ (parse tokens).faults ↔ (programGrowth tokens).fault = some fault := by
  rw [parse, Option.mem_toList, programGrowth]

/-- Streams of which the same nodes are made with the same fault have the same tree and faults. -/
lemma parse_congr {tokens others : List Token}
    (hnodes : (programGrowth tokens).nodes = (programGrowth others).nodes)
    (hfault : (programGrowth tokens).fault = (programGrowth others).fault) :
    parse tokens = parse others := by
  unfold programGrowth at hnodes hfault
  simp only [parse, hnodes, hfault]

/-- More tokens at the end of a stream. -/
lemma continues_programGrowth (tokens extra : List Token) :
    (programGrowth tokens).Continues extra (programGrowth (tokens ++ extra)) :=
  local_program_self.continues tokens extra

/-- The offending token is the first that is left. -/
lemma exists_rest_of_found {tokens : List Token} {fault : Fault} {t : Token}
    (hfault : (programGrowth tokens).fault = some fault) (hfound : fault.found? = some t) :
    ∃ rest, (programGrowth tokens).rest = t :: rest := by
  have hstops := (continues_programGrowth tokens []).stopsAt hfault
  generalize (programGrowth tokens).rest = left at hstops ⊢
  cases hstops with
  | @atToken _ u rest hu =>
    obtain rfl : t = u := Option.some.inj (hfound.symm.trans hu)
    exact ⟨rest, rfl⟩
  | atEnd expected => cases hfound

section

variable {used rest : List Token} {t : Token}

/-- The tokens before the offending one are all taken, and the most that is wrong with them is that
they end too early. -/
lemma programGrowth_before (hrest : (programGrowth (used ++ t :: rest)).rest = t :: rest) :
    (programGrowth used).rest = [] ∧ ∀ fault ∈ (programGrowth used).fault, fault.StopsAt [] := by
  have hcontinues := continues_programGrowth used (t :: rest)
  generalize programGrowth (used ++ t :: rest) = more at hcontinues hrest
  generalize programGrowth used = growth at hcontinues ⊢
  cases hcontinues with
  | @settled nodes fault u others hfault =>
    -- What the shorter run leaves would be left by the longer one, on top of all that follows.
    have hlength := congrArg List.length hrest
    simp only [List.length_append, List.length_cons] at hlength
    omega
  | reached hfault _ _ => exact ⟨rfl, hfault⟩

/-- With the offending token the tree and the fault are settled. -/
lemma programGrowth_after (hrest : (programGrowth (used ++ t :: rest)).rest = t :: rest)
    (more : List Token) :
    (programGrowth (used ++ [t] ++ more)).nodes = (programGrowth (used ++ t :: rest)).nodes ∧
      (programGrowth (used ++ [t] ++ more)).fault =
        (programGrowth (used ++ t :: rest)).fault := by
  have hcontinues := continues_programGrowth (used ++ [t]) rest
  have hmore := continues_programGrowth (used ++ [t]) more
  rw [List.append_assoc, List.singleton_append] at hcontinues
  generalize programGrowth (used ++ t :: rest) = whole at hcontinues hrest ⊢
  generalize programGrowth (used ++ [t] ++ more) = other at hmore ⊢
  generalize programGrowth (used ++ [t]) = growth at hcontinues hmore
  cases hcontinues with
  | settled nodes hfault =>
    cases hmore with
    | settled _ _ => exact ⟨rfl, rfl⟩
  | reached _ hsuffix _ =>
    have hle := hsuffix.length_le
    rw [hrest, List.length_cons] at hle
    exact absurd hle (Nat.not_succ_le_self _)

end

/-- A token that is wrong has its place in the stream; the stream is right up to it and does not
matter after it. -/
lemma exists_index_of_found {tokens : List Token} {fault : Fault} {t : Token}
    (hfault : fault ∈ (parse tokens).faults) (hfound : fault.found? = some t) :
    ∃ k, tokens[k]? = some t ∧
      ((parse (tokens.take k)).isComplete = true ∨
        ∃ expected, (parse (tokens.take k)).faults = [.endOfInput expected]) ∧
      ∀ more, parse (tokens.take (k + 1) ++ more) = parse tokens := by
  obtain ⟨rest, hrest⟩ := exists_rest_of_found (mem_faults_parse.mp hfault) hfound
  have hsuffix : (programGrowth tokens).rest <:+ tokens := local_program_self.suffix tokens
  rw [hrest] at hsuffix
  -- The index of the token is the number of tokens used before the fault.
  obtain ⟨used, rfl⟩ := hsuffix
  have htake : (used ++ t :: rest).take (used.length + 1) = used ++ [t] := by
    rw [List.take_length_add_append]
    rfl
  refine ⟨used.length, by simp, ?_, fun more => ?_⟩
  · rw [List.take_left' rfl]
    obtain ⟨-, hstops⟩ := programGrowth_before hrest
    cases hbefore : (programGrowth used).fault with
    | none =>
      refine .inl (Salvage.isComplete_iff.mpr ?_)
      exact Option.toList_eq_nil_iff.mpr hbefore
    | some other =>
      cases hstops other hbefore with
      | atEnd expected => exact .inr ⟨expected, congrArg Option.toList hbefore⟩
  · rw [htake]
    obtain ⟨hnodes, hsame⟩ := programGrowth_after hrest more
    exact parse_congr hnodes hsame

/-- A fault that is found at a token of the stream is the only one, and lies where that token does.
The tokens before it are at most incomplete, and with any others after it the stream has the same
tree and the same fault.  So if no token of a stream is wrong, none is in any start of it. -/
theorem parse_fault_final (tokens : List Token) :
    (∀ fault ∈ (parse tokens).faults, ∀ t, fault.found? = some t →
      ∃ k, tokens[k]? = some t ∧ fault.location? = some (t.origin, t.position) ∧
        ((parse (tokens.take k)).isComplete = true ∨
          ∃ expected, (parse (tokens.take k)).faults = [.endOfInput expected]) ∧
        (parse tokens).faults = [fault] ∧
        ∀ more, parse (tokens.take (k + 1) ++ more) = parse tokens) ∧
      ((∀ fault ∈ (parse tokens).faults, fault.found? = none) →
        ∀ start, start <+: tokens → ∀ fault ∈ (parse start).faults, fault.found? = none) := by
  constructor
  · intro fault hfault t hfound
    obtain ⟨k, hk, hbefore, hafter⟩ := exists_index_of_found hfault hfound
    have hlocation : fault.location? = some (t.origin, t.position) := by
      cases fault <;> cases hfound <;> rfl
    have honly : (parse tokens).faults = [fault] :=
      congrArg Option.toList (mem_faults_parse.mp hfault)
    exact ⟨k, hk, hlocation, hbefore, honly, hafter⟩
  · intro hnone start hstart fault hfault
    cases hfound : fault.found? with
    | none => rfl
    | some t =>
      obtain ⟨extra, rfl⟩ := hstart
      obtain ⟨k, -, -, hafter⟩ := exists_index_of_found hfault hfound
      have hsame := hafter (start.drop (k + 1) ++ extra)
      rw [← List.append_assoc, List.take_append_drop] at hsame
      rw [← hsame] at hfault
      exact hfound.symm.trans (hnone fault hfault)

/-- A parenthesis where a value should begin, and a value that does not begin at all. -/
theorem parse_fault_final_parenthesis :
    let tokens := (Token.tokenize ⟨"m"⟩ (Utf8.encode "let x = ) class B end")).value
    let value := (Token.tokenize ⟨"m"⟩ (Utf8.encode "let x = -1")).value
    (∃ fault ∈ (parse tokens).faults, ∃ t, fault.found? = some t ∧ ∃ k, tokens[k]? = some t ∧
      ∀ more, parse (tokens.take (k + 1) ++ more) = parse tokens) ∧
    (∀ fault ∈ (parse value).faults, fault.found? = none) ∧
      ∀ fault ∈ (parse (value.take 4)).faults, fault.found? = none := by
  intro tokens value
  have hfound : ∃ fault ∈ (parse tokens).faults, ∃ t, fault.found? = some t := by
    refine ⟨.unexpected .expression ⟨⟨"m"⟩, ⟨1, 9, 8⟩, .delimiter, .plain, ")", 1⟩, ?_, _, rfl⟩
    decide +kernel
  have hnone : ∀ fault ∈ (parse value).faults, fault.found? = none := by decide +kernel
  obtain ⟨fault, hfault, t, ht⟩ := hfound
  obtain ⟨k, hk, -, -, -, hafter⟩ := (parse_fault_final tokens).1 fault hfault t ht
  exact ⟨⟨fault, hfault, t, ht, k, hk, hafter⟩, hnone,
    (parse_fault_final value).2 hnone (value.take 4) (List.take_prefix 4 value)⟩

end UvaAnalysis.Tree
