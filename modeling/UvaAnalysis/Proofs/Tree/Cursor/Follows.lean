import UvaAnalysis.Proofs.Tree.Cursor.Procedures
import UvaAnalysis.Proofs.Tree.Local.Expression

/-!
# Computations that follow a reader

A computation *follows* a reader if, from every cursor with as many levels left as the reader has,
it comes to an end with the value or the fault of the reader and leaves what the reader leaves
(`Parser.Follows`).  Following passes through one combinator after another and through the calls of
procedures, and along the way it is noted what a cursor goes through from the start of a computation
to its end (`Cursor.Onward`).
-/

namespace UvaAnalysis

/-- The value or the fault of a result. -/
def Reader.outcome {α : Type} : EStateM.Result Fault (List Token) α → Except Fault α
  | .ok a _ => .ok a
  | .error fault _ => .error fault

namespace Tree

open Reader (outcome remaining)

section

variable {tokens rest : List Token} {s s' s'' : Cursor} {made more : List Tree} {t : Token}

/-- What a computation that starts with the cursor `s` and makes the nodes `made` does to it: the
cursor goes forth and not past the last token, as many levels are open as were before, and no chain
of operators is asked for that would have to bind more tightly than every operator. -/
structure Cursor.Onward (tokens : List Token) (s s' : Cursor) (made : List Tree) : Prop where
  position_le : s.position ≤ s'.position
  position_le_length : s'.position ≤ tokens.length
  depth_eq : s'.depth = s.depth
  nodes_eq : s'.nodes = s.nodes ++ made
  asked : ∃ least, s'.asked = s.asked ++ least ∧ ∀ precedence ∈ least, precedence ≤ 7

namespace Cursor

/-- A cursor that stays where it is goes onward, if that is within the tokens. -/
lemma onward_refl (hs : s.position ≤ tokens.length) : s.Onward tokens s [] :=
  ⟨Nat.le_refl _, hs, rfl, (List.append_nil _).symm, [], (List.append_nil _).symm,
    fun _ h => nomatch h⟩

/-- Two ways onward make one, with the nodes and the notes of both. -/
lemma Onward.trans (h : s.Onward tokens s' made) (h' : s'.Onward tokens s'' more) :
    s.Onward tokens s'' (made ++ more) := by
  obtain ⟨asked, hasked, hle⟩ := h.asked
  obtain ⟨asked', hasked', hle'⟩ := h'.asked
  refine ⟨Nat.le_trans h.position_le h'.position_le, h'.position_le_length,
    h'.depth_eq.trans h.depth_eq, ?_, asked ++ asked', ?_, ?_⟩
  · rw [h'.nodes_eq, h.nodes_eq, List.append_assoc]
  · rw [hasked', hasked, List.append_assoc]
  · exact fun precedence hmem => (List.mem_append.mp hmem).elim (hle _) (hle' _)

/-- Whoever goes forth leaves fewer tokens. -/
lemma Onward.length_left_le (h : s.Onward tokens s' made) :
    (s'.left tokens).length ≤ (s.left tokens).length := by
  rw [left, left, List.length_drop, List.length_drop]
  exact Nat.sub_le_sub_left h.position_le _

/-- With a token to come there is one to go forth to. -/
lemma onward_next (hleft : s.left tokens = t :: rest) : s.Onward tokens s.next [] := by
  have hlt : s.position < tokens.length := by
    refine Nat.lt_of_not_le fun hle => ?_
    rw [left, List.drop_eq_nil_of_le hle] at hleft
    cases hleft
  exact ⟨Nat.le_succ _, hlt, rfl, (List.append_nil _).symm, [], (List.append_nil _).symm,
    fun _ h => nomatch h⟩

/-- After the next token the others are left. -/
lemma left_next (hleft : s.left tokens = t :: rest) : s.next.left tokens = rest := by
  rw [left] at hleft
  rw [left, next, ← List.drop_drop, hleft, List.drop_one, List.tail_cons]

end Cursor

namespace Parser

variable {α β : Type} {m : Parser α} {next : α → Parser β} {left : List Token} {a : α}
  {fault : Fault} {final : Except Fault α} {final' : Except Fault β}
  {result : EStateM.Result Fault (List Token) β}

/-! ### Where a computation ends -/

/-- One computation after another: the second starts where the first ended, and a failure of the
first is final. -/
lemma bind_apply (m : Parser α) (next : α → Parser β) (calls : Procedures) (s : Cursor) :
    (m >>= next) calls s =
      match m calls s with
      | some (.ok a, s') => next a calls s'
      | some (.error fault, s') => some (.error fault, s')
      | none => none := by
  change StateT.bind (m calls) (ExceptT.bindCont fun a => next a calls) s = _
  unfold StateT.bind
  rcases m calls s with _ | ⟨_ | _, s'⟩ <;> rfl

/-- From the cursor `s` the computation comes to an end with the outcome `final` and the cursor
`s'`: it does so if enough calls may be open inside one another, and however many more may be. -/
def EndsAt (tokens : List Token) (m : Parser α) (s : Cursor) (final : Except Fault α)
    (s' : Cursor) : Prop :=
  ∃ enough, ∀ number ≥ enough, m (.table tokens number) s = some (final, s')

/-- A computation that calls no procedure comes to the same end through every table. -/
lemma endsAt_of_apply (h : ∀ calls, m calls s = some (final, s')) :
    EndsAt tokens m s final s' :=
  ⟨0, fun _ _ => h _⟩

/-- Two computations that do the same from the cursor `s`. -/
lemma EndsAt.congr {m' : Parser α} (h : EndsAt tokens m s final s')
    (hsame : ∀ calls, m' calls s = m calls s) : EndsAt tokens m' s final s' := by
  obtain ⟨enough, heq⟩ := h
  exact ⟨enough, fun number hnumber => (hsame _).trans (heq number hnumber)⟩

/-- Two computations in turn come to an end through every table that is enough for both. -/
lemma EndsAt.bind (h : EndsAt tokens m s (.ok a) s')
    (hnext : EndsAt tokens (next a) s' final' s'') :
    EndsAt tokens (m >>= next) s final' s'' := by
  obtain ⟨enough, heq⟩ := h
  obtain ⟨enough', heq'⟩ := hnext
  refine ⟨max enough enough', fun number hnumber => ?_⟩
  rw [bind_apply, heq number (Nat.le_trans (Nat.le_max_left _ _) hnumber)]
  exact heq' number (Nat.le_trans (Nat.le_max_right _ _) hnumber)

/-- After a failure the second computation is not carried out. -/
lemma EndsAt.bind_error (h : EndsAt tokens m s (.error fault) s') :
    EndsAt tokens (m >>= next) s (.error fault) s' := by
  obtain ⟨enough, heq⟩ := h
  refine ⟨enough, fun number hnumber => ?_⟩
  rw [bind_apply, heq number hnumber]

/-- A call needs one more table than the text of the procedure. -/
lemma EndsAt.call {body : Parser α} {procedure : Procedures → Motion α}
    (h : EndsAt tokens body s final s')
    (hbody : ∀ calls, procedure (calls.next tokens) = body calls) :
    EndsAt tokens (Parser.call procedure) s final s' := by
  obtain ⟨enough, heq⟩ := h
  refine ⟨enough + 1, fun number hnumber => ?_⟩
  obtain ⟨number, rfl⟩ := Nat.exists_eq_add_one_of_ne_zero (Nat.ne_zero_of_lt hnumber)
  rw [Parser.call, Procedures.table, hbody]
  exact heq number (Nat.le_of_succ_le_succ hnumber)

/-- What is done at the end is done to the cursor at the end. -/
lemma EndsAt.ending (h : EndsAt tokens m s final s') (move : Cursor → Cursor) :
    EndsAt tokens (ending move m) s final (move s') := by
  obtain ⟨enough, heq⟩ := h
  refine ⟨enough, fun number hnumber => ?_⟩
  rw [Parser.ending, heq number hnumber, Option.map_some]

/-- From the cursor `s` the computation comes to an end, has made the nodes `made`, and has the
outcome of `result` and the tokens left that are left there. -/
def Ends (tokens : List Token) (m : Parser α) (s : Cursor) (made : List Tree)
    (result : EStateM.Result Fault (List Token) α) : Prop :=
  ∃ s', EndsAt tokens m s (outcome result) s' ∧ s.Onward tokens s' made ∧
    s'.left tokens = remaining result

/-- A computation that gives a value at once leaves the cursor where it is. -/
lemma ends_pure (hs : s.position ≤ tokens.length) (hleft : s.left tokens = left) (a : α) :
    Ends tokens (pure a) s [] (.ok a left) :=
  ⟨s, endsAt_of_apply fun _ => rfl, Cursor.onward_refl hs, hleft⟩

/-- So does one that fails at once. -/
lemma ends_throw (hs : s.position ≤ tokens.length) (hleft : s.left tokens = left) (fault : Fault) :
    Ends tokens (throw fault : Parser α) s [] (.error fault left) :=
  ⟨s, endsAt_of_apply fun _ => rfl, Cursor.onward_refl hs, hleft⟩

/-- Moving on takes the next token. -/
lemma ends_advance (hleft : s.left tokens = t :: rest) :
    Ends tokens advance s [] (.ok () rest) :=
  ⟨s.next, endsAt_of_apply fun _ => rfl, Cursor.onward_next hleft, Cursor.left_next hleft⟩

/-- The second computation starts from wherever the first one ended, and the nodes of both are made
in their order. -/
lemma Ends.bind (h : Ends tokens m s made (.ok a left))
    (hnext : ∀ s', s.Onward tokens s' made → s'.left tokens = left →
      Ends tokens (next a) s' more result) :
    Ends tokens (m >>= next) s (made ++ more) result := by
  obtain ⟨s', hends, honward, hleft⟩ := h
  obtain ⟨s'', hends', honward', hleft'⟩ := hnext s' honward hleft
  exact ⟨s'', hends.bind hends', honward.trans honward', hleft'⟩

/-- After a failure nothing more is made or taken. -/
lemma Ends.bind_error (h : Ends tokens m s made (.error fault left)) :
    Ends tokens (m >>= next) s made (.error fault left) := by
  obtain ⟨s', hends, honward, hleft⟩ := h
  exact ⟨s', hends.bind_error, honward, hleft⟩

/-- A call ends as the text of the procedure does. -/
lemma Ends.call {body : Parser α} {procedure : Procedures → Motion α}
    {result : EStateM.Result Fault (List Token) α} (h : Ends tokens body s made result)
    (hbody : ∀ calls, procedure (calls.next tokens) = body calls) :
    Ends tokens (Parser.call procedure) s made result := by
  obtain ⟨s', hends, honward, hleft⟩ := h
  exact ⟨s', hends.call hbody, honward, hleft⟩

/-- To look at the next token is not to take it. -/
lemma Ends.of_peek {next : Option Token → Parser β}
    (h : Ends tokens (next (s.left tokens).head?) s made result) :
    Ends tokens (peek tokens >>= next) s made result := by
  rw [Cursor.left, List.head?_drop] at h
  exact h

/-- A token that must be there is missed at the end of the tokens. -/
lemma ends_demand_nil (hs : s.position ≤ tokens.length) (hleft : s.left tokens = [])
    (expected : Expected) :
    Ends tokens (demand tokens expected) s [] (.error (.endOfInput expected) []) := by
  refine .of_peek ?_
  rw [hleft]
  exact ends_throw hs hleft _

/-- A token that must be there and is there is not taken yet. -/
lemma Ends.of_demand {expected : Expected} {next : Token → Parser β}
    (hleft : s.left tokens = t :: rest) (h : Ends tokens (next t) s made result) :
    Ends tokens (demand tokens expected >>= next) s made result := by
  rw [demand, bind_assoc]
  refine .of_peek ?_
  rw [hleft]
  exact h

/-- Where the tokens end no token is accepted. -/
lemma Ends.of_accept_nil {category : Token.Category} {text : String} {next : Bool → Parser β}
    (hleft : s.left tokens = []) (h : Ends tokens (next false) s made result) :
    Ends tokens (accept tokens category text >>= next) s made result := by
  rw [accept, take?, bind_assoc, bind_assoc]
  refine .of_peek ?_
  rw [hleft]
  exact h

/-! ### Following a reader -/

/-- A cursor that has `room` levels left, and no more than `most` tokens. -/
structure Ready (tokens : List Token) (room most : ℕ) (s : Cursor) : Prop where
  position_le : s.position ≤ tokens.length
  depth_add : s.depth + room = nestingLimit
  length_left_le : (s.left tokens).length ≤ most

/-- From every cursor with `room` levels and no more than `most` tokens left, the computation does
what the reader does, and makes no node that stays. -/
def Follows (tokens : List Token) (room most : ℕ) (m : Parser α) (reader : Reader α) : Prop :=
  ∀ s, Ready tokens room most s → Ends tokens m s [] (reader (s.left tokens))

variable {room most fewer : ℕ} {reader : Reader α} {following : α → Reader β}

/-- A cursor with few tokens left has no more than a larger number. -/
lemma Ready.mono (h : Ready tokens room fewer s) (hle : fewer ≤ most) :
    Ready tokens room most s :=
  ⟨h.position_le, h.depth_add, Nat.le_trans h.length_left_le hle⟩

/-- The tokens that are left are all there are. -/
lemma Ready.self (h : Ready tokens room most s) : Ready tokens room (s.left tokens).length s :=
  ⟨h.position_le, h.depth_add, Nat.le_refl _⟩

/-- Later on the same levels are left. -/
lemma Ready.onward (h : Ready tokens room most s) (honward : s.Onward tokens s' made) :
    Ready tokens room (s'.left tokens).length s' :=
  ⟨honward.position_le_length, honward.depth_eq ▸ h.depth_add, Nat.le_refl _⟩

/-- One level further in one level less is left. -/
lemma Ready.enter (h : Ready tokens (room + 1) most s) :
    s.depth < nestingLimit ∧ Ready tokens room most s.deeper := by
  have hdepth := h.depth_add
  refine ⟨by omega, h.position_le, ?_, h.length_left_le⟩
  rw [← hdepth, Cursor.deeper, Nat.add_right_comm, Nat.add_assoc]

/-- A cursor with no tokens left is at the end. -/
lemma Ready.left_eq_nil (h : Ready tokens room 0 s) : s.left tokens = [] :=
  List.length_eq_zero_iff.mp (Nat.le_zero.mp h.length_left_le)

/-- A computation that follows a reader from some cursors follows it from fewer. -/
lemma Follows.mono (h : Follows tokens room most m reader) (hle : fewer ≤ most) :
    Follows tokens room fewer m reader :=
  fun s hs => h s (hs.mono hle)

/-- A call follows what the text of the procedure follows. -/
lemma Follows.call {body : Parser α} {procedure : Procedures → Motion α}
    (h : Follows tokens room most body reader)
    (hbody : ∀ calls, procedure (calls.next tokens) = body calls) :
    Follows tokens room most (Parser.call procedure) reader :=
  fun s hs => (h s hs).call hbody

/-- A value that is given at once is given by both. -/
lemma follows_pure (a : α) : Follows tokens room most (pure a) (pure a) :=
  fun _ hs => ends_pure hs.position_le rfl a

/-- The second computation follows the second reader from wherever the first reader succeeds. -/
lemma Follows.bind_of_ok (h : Follows tokens room most m reader)
    (hnext : ∀ a left rest, reader left = .ok a rest → left.length ≤ most →
      rest.length ≤ left.length → Follows tokens room rest.length (next a) (following a)) :
    Follows tokens room most (m >>= next) (reader >>= following) := by
  intro s hs
  have hends := h s hs
  rw [Reader.bind_apply]
  cases hreader : reader (s.left tokens) with
  | error fault rest =>
    rw [hreader] at hends
    exact hends.bind_error
  | ok a rest =>
    rw [hreader] at hends
    refine hends.bind fun s' honward hleft => ?_
    obtain rfl := hleft
    exact hnext a _ _ hreader hs.length_left_le honward.length_left_le s' (hs.onward honward)

/-- Two computations in turn follow two readers in turn. -/
lemma Follows.bind (h : Follows tokens room most m reader)
    (hnext : ∀ a, Follows tokens room most (next a) (following a)) :
    Follows tokens room most (m >>= next) (reader >>= following) :=
  h.bind_of_ok fun a _ _ _ hmost hle => (hnext a).mono (Nat.le_trans hle hmost)

/-- A computation that follows a loop with every bound follows it with the tokens at hand. -/
lemma follows_bounded {loop : List Token → Reader α}
    (h : ∀ bound, Follows tokens room bound.length m (loop bound)) :
    Follows tokens room most m fun tokens => loop tokens tokens :=
  fun s hs => h (s.left tokens) s hs.self

/-- After the first token a computation goes on as another reader does. -/
lemma Follows.after_advance (h : Follows tokens room rest.length m reader)
    (hs : Ready tokens room most s) (hleft : s.left tokens = t :: rest) :
    Ends tokens (advance >>= fun _ => m) s [] (reader rest) := by
  refine (ends_advance hleft).bind fun s' honward hrest => ?_
  obtain rfl := hrest
  exact h s' (hs.onward honward)

/-! ### One token at the most -/

/-- A computation that looks at the next token follows a reader that decides on it. -/
lemma follows_peek {next : Option Token → Parser α}
    (hnil : ∀ s, Ready tokens room most s → s.left tokens = [] →
      Ends tokens (next none) s [] (reader []))
    (hcons : ∀ s t rest, Ready tokens room most s → s.left tokens = t :: rest →
      Ends tokens (next (some t)) s [] (reader (t :: rest))) :
    Follows tokens room most (peek tokens >>= next) reader := by
  intro s hs
  refine .of_peek ?_
  cases hleft : s.left tokens with
  | nil => exact hnil s hs hleft
  | cons t rest => exact hcons s t rest hs hleft

/-- A computation that needs a next token follows a reader that decides on it. -/
lemma follows_demand {expected : Expected} {next : Token → Parser α}
    (hnil : reader [] = .error (.endOfInput expected) [])
    (hcons : ∀ s t rest, Ready tokens room most s → s.left tokens = t :: rest →
      Ends tokens (next t) s [] (reader (t :: rest))) :
    Follows tokens room most (demand tokens expected >>= next) reader := by
  intro s hs
  cases hleft : s.left tokens with
  | nil =>
    rw [hnil]
    exact (ends_demand_nil hs.position_le hleft expected).bind_error
  | cons t rest => exact .of_demand hleft (hcons s t rest hs hleft)

/-- A token is taken where the reader takes it. -/
lemma follows_take? (wanted : Token → Bool) :
    Follows tokens room most (take? tokens wanted) (Reader.take? wanted) := by
  refine follows_peek (fun s hs hleft => ends_pure hs.position_le hleft none)
    fun s t rest hs hleft => ?_
  rw [Reader.take?]
  split_ifs with h
  · simp only [h, if_true]
    exact (follows_pure (some t)).after_advance hs hleft
  · simp only [h]
    exact ends_pure hs.position_le hleft none

/-- To accept a token is to take it and tell whether it was there. -/
lemma follows_accept (category : Token.Category) (text : String) :
    Follows tokens room most (accept tokens category text) (Reader.accept category text) := by
  have haccept : Reader.accept category text =
      (do return (← Reader.take? (·.is category text)).isSome) := by
    funext tokens
    cases tokens with
    | nil => rfl
    | cons t rest =>
      rw [Reader.accept, Reader.bind_apply, Reader.take?]
      cases t.is category text <;> rfl
  rw [haccept]
  exact (follows_take? _).bind fun found => follows_pure found.isSome

/-- A token that is expected and is not there is a fault at the token that is. -/
lemma follows_expect (category : Token.Category) (text : String) :
    Follows tokens room most (expect tokens category text) (Reader.expect category text) := by
  refine follows_demand rfl fun s t rest hs hleft => ?_
  have haccept := follows_accept category text s hs
  rw [hleft, Reader.accept] at haccept
  rw [Reader.expect]
  split_ifs at haccept ⊢ with h
  · exact haccept.bind fun s' honward hrest => ends_pure honward.position_le_length hrest ()
  · exact haccept.bind fun s' honward hrest => ends_throw honward.position_le_length hrest _

/-- So it is when a name is asked for. -/
lemma follows_identifier (expected : Expected) :
    Follows tokens room most (identifier tokens expected) (Reader.identifier expected) := by
  refine follows_demand rfl fun s t rest hs hleft => ?_
  rw [Reader.identifier]
  split_ifs with h
  · exact (follows_pure t).after_advance hs hleft
  · exact ends_throw hs.position_le hleft _

/-! ### Levels and notes -/

/-- With no level left a nested computation is refused. -/
lemma follows_nested_zero (what : Expected) (body : Parser α) :
    Follows tokens 0 most (nested tokens what body) (Reader.tooDeep what) := by
  intro s hs
  have hdepth : nestingLimit ≤ s.depth := Nat.le_of_eq hs.depth_add.symm
  have henter (calls : Procedures) : enter tokens what calls s =
      (demand tokens what >>= fun t => throw (.nestedTooDeep what t) : Parser Unit) calls s := by
    change (if nestingLimit ≤ s.depth then (_ : Parser Unit) else _) calls s = _
    rw [if_pos hdepth]
  have hrefused {fault : Fault} {left : List Token}
      (h : Ends tokens (demand tokens what >>= fun t => throw (.nestedTooDeep what t) : Parser Unit)
        s [] (.error fault left)) :
      Ends tokens (nested tokens what body) s [] (.error fault left) := by
    obtain ⟨s', hends, honward, hleft⟩ := h
    exact Ends.bind_error ⟨s', hends.congr henter, honward, hleft⟩
  cases hleft : s.left tokens with
  | nil => exact hrefused (ends_demand_nil hs.position_le hleft what).bind_error
  | cons t rest => exact hrefused (.of_demand hleft (ends_throw hs.position_le hleft _))

/-- With a level left a nested computation takes place, and gives the level back. -/
lemma Ends.nested {what : Expected} {result : EStateM.Result Fault (List Token) α}
    (hdepth : s.depth < nestingLimit) (h : Ends tokens m s.deeper made result) :
    Ends tokens (Parser.nested tokens what m) s made result := by
  have henter : EndsAt tokens (enter tokens what) s (.ok ()) s.deeper := by
    refine endsAt_of_apply fun calls => ?_
    change (if nestingLimit ≤ s.depth then (_ : Parser Unit) else _) calls s = _
    rw [if_neg (Nat.not_le_of_lt hdepth)]
    rfl
  obtain ⟨s', hends, honward, hleft⟩ := h
  refine ⟨s'.shallower, henter.bind (hends.ending _), ⟨honward.position_le,
    honward.position_le_length, ?_, honward.nodes_eq, honward.asked⟩, hleft⟩
  exact (congrArg (· - 1) honward.depth_eq).trans (Nat.add_sub_cancel s.depth 1)

/-- A nested computation has one level less than the computation around it. -/
lemma Follows.nested {what : Expected} (h : Follows tokens room most m reader) :
    Follows tokens (room + 1) most (Parser.nested tokens what m) reader :=
  fun _ hs => Ends.nested hs.enter.1 (h _ hs.enter.2)

/-- A chain of operators may be noted if it need not bind more tightly than every operator. -/
lemma Follows.after_note {least : ℕ} (h : Follows tokens room most m reader) (hleast : least ≤ 7) :
    Follows tokens room most (note least >>= fun _ => m) reader := by
  intro s hs
  have hnote : Ends tokens (note least) s [] (.ok () (s.left tokens)) := by
    refine ⟨s.noted least, endsAt_of_apply fun _ => rfl, ⟨Nat.le_refl _, hs.position_le, rfl,
      (List.append_nil _).symm, [least], rfl, ?_⟩, rfl⟩
    exact List.forall_mem_singleton.mpr hleast
  refine hnote.bind fun s' honward hleft => ?_
  rw [← hleft]
  exact h s' ((hs.onward honward).mono (hleft ▸ hs.length_left_le))

end Parser

end

end Tree

end UvaAnalysis
