import UvaAnalysis.Proofs.Text.Json.Scalar

/-!
# Decoding streams of JSON

`decodeStream` reads JSON texts one after the other to the end of a stream.  It finds what the
grammar has, no more and no less (`decodeStream_eq_some_iff`), so a stream has only one list of
values.

The reader of values calls itself for the items of arrays and objects, at most `fuel` deep.  What it
finds is right whatever the fuel (`exists_spells_of_value`), and it finds every value whose text is
not longer than the fuel (`value_append`).  Both come from one round, `valueOf`, in which the items
are read by any reader that does as much for them (`Sound`, `Complete`).
-/

namespace UvaAnalysis.Json

/-- The text after the blanks at its front. -/
def skipBlanks (text : List Char) : List Char :=
  text.dropWhile isBlank

/-- Items with a comma between each and the next, and the character that closes them: at least one
item, and at most `bound`. -/
def items {α : Type} (item : Scanner α) (close : Char) : ℕ → Scanner (List α)
  | 0, _ => none
  | bound + 1, text =>
    match item (skipBlanks text) with
    | none => none
    | some (a, rest) =>
      match skipBlanks rest with
      | [] => none
      | c :: rest =>
        if c = ',' then
          (items item close bound rest).map fun (others, rest) => (a :: others, rest)
        else if c = close then some ([a], rest)
        else none

/-- Items, if there are any, and the character that closes them. -/
def list {α : Type} (item : Scanner α) (close : Char) : Scanner (List α) := fun text =>
  match skipBlanks text with
  | [] => none
  | c :: rest => if c = close then some ([], rest) else items item close text.length text

/-- A member of an object. -/
def member (inner : Scanner Value) : Scanner (String × Value) := fun text =>
  match quoted text with
  | none => none
  | some (key, rest) =>
    match skipBlanks rest with
    | ':' :: rest => (inner (skipBlanks rest)).map fun (value, rest) => ((key, value), rest)
    | _ => none

/-- A value, when `inner` reads the values in it. -/
def valueOf (inner : Scanner Value) : Scanner Value
  | 'n' :: 'u' :: 'l' :: 'l' :: rest => some (.null, rest)
  | 't' :: 'r' :: 'u' :: 'e' :: rest => some (.boolean true, rest)
  | 'f' :: 'a' :: 'l' :: 's' :: 'e' :: rest => some (.boolean false, rest)
  | '"' :: rest => (quoted ('"' :: rest)).map fun (s, rest) => (.string s, rest)
  | '[' :: rest => (list inner ']' rest).map fun (items, rest) => (.array items, rest)
  | '\x7b' :: rest =>
    (list (member inner) '\x7d' rest).map fun (members, rest) => (.object members, rest)
  | text => (numeral text).map fun (q, rest) => (.number q, rest)

/-- A value that is nested less than `fuel` deep. -/
def value : ℕ → Scanner Value
  | 0 => fun _ => none
  | fuel + 1 => valueOf (value fuel)

/-- The values of less than `bound` texts, one after the other. -/
def documents : ℕ → List Char → Option (List Value)
  | 0, _ => none
  | bound + 1, text =>
    match skipBlanks text with
    | [] => some []
    | c :: rest =>
      match value (c :: rest).length (c :: rest) with
      | none => none
      | some (v, rest) => (documents bound rest).map fun values => v :: values

/-- The values of the JSON texts in a stream, if it is one. -/
def decodeStream (text : List Char) : Option (List Value) :=
  documents (text.length + 1) text

/-! ### Blanks -/

section

variable {text rest blank : List Char} {c : Char}

/-- What is skipped is blank. -/
lemma exists_blank_append_skipBlanks (text : List Char) :
    ∃ blank, Blank blank ∧ text = blank ++ skipBlanks text :=
  ⟨text.takeWhile isBlank, fun _ hc => List.mem_takeWhile_imp hc,
    List.takeWhile_append_dropWhile.symm⟩

/-- Blanks are skipped up to what is not blank. -/
lemma skipBlanks_append (hblank : Blank blank) (h : isBlank c = false) (rest : List Char) :
    skipBlanks (blank ++ c :: rest) = c :: rest :=
  dropWhile_run hblank fun _ heq => Option.some.inj heq ▸ h

/-- Blanks alone are skipped altogether. -/
lemma skipBlanks_of_blank (h : Blank blank) : skipBlanks blank = [] :=
  List.dropWhile_eq_nil_iff.mpr h

/-- Blanks are no characters of numbers. -/
lemma isNumberChar_of_isBlank (h : isBlank c = true) : isNumberChar c = false := by
  simp only [isBlank, Bool.or_eq_true, decide_eq_true_eq] at h
  rcases h with ((rfl | rfl) | rfl) | rfl <;> decide

/-- After a number there may be blanks and any character that a number cannot have. -/
lemma Blank.endsNumber (hblank : Blank blank) (hc : isNumberChar c = false) (rest : List Char) :
    EndsNumber (blank ++ c :: rest) := by
  cases blank with
  | nil => exact fun _ heq => Option.some.inj heq ▸ hc
  | cons b blank =>
    intro _ heq
    obtain rfl := Option.some.inj heq
    exact isNumberChar_of_isBlank (hblank _ List.mem_cons_self)

end

/-! ### Lists -/

section

variable {α : Type} {item : Scanner α} {Item : List Char → α → Prop} {close : Char} {bound n : ℕ}
variable {text body rest : List Char} {found : List α}

/-- What is read is an item. -/
def Sound (item : Scanner α) (Item : List Char → α → Prop) : Prop :=
  ∀ ⦃text : List Char⦄ ⦃a : α⦄ ⦃rest : List Char⦄, item text = some (a, rest) →
    ∃ used, Item used a ∧ text = used ++ rest

/-- Every item that is not longer than `bound` is read. -/
def Complete (item : Scanner α) (Item : List Char → α → Prop) (bound : ℕ) : Prop :=
  ∀ ⦃used : List Char⦄ ⦃a : α⦄ ⦃rest : List Char⦄, Item used a → used.length ≤ bound →
    EndsNumber rest → item (used ++ rest) = some (a, rest)

/-- An item begins with a character, not with a blank or with what closes a list. -/
def Begins (Item : List Char → α → Prop) (close : Char) : Prop :=
  ∀ ⦃text : List Char⦄ ⦃a : α⦄, Item text a →
    ∃ c rest, text = c :: rest ∧ isBlank c = false ∧ c ≠ close

/-- What is read as items is listed, up to what closes the list. -/
lemma exists_listed_of_items (hsound : Sound item Item)
    (h : items item close bound text = some (found, rest)) :
    ∃ body first others, found = first :: others ∧ Listed Item body found ∧
      text = body ++ close :: rest := by
  induction bound generalizing text found with
  | zero => cases h
  | succ bound ih =>
    obtain ⟨before, hbefore, htext⟩ := exists_blank_append_skipBlanks text
    unfold items at h
    split at h
    · cases h
    rename_i a rest₁ hitem
    obtain ⟨used, hused, hrest₁⟩ := hsound hitem
    obtain ⟨after, hafter, hrest₂⟩ := exists_blank_append_skipBlanks rest₁
    split at h
    · cases h
    rename_i c rest₃ hskip
    rw [hskip] at hrest₂
    -- Behind an item stands a comma and more items, or what closes the list.
    split_ifs at h with hcomma hclose
    · obtain ⟨⟨others, rest₄⟩, hothers, hpair⟩ := Option.map_eq_some_iff.mp h
      obtain ⟨rfl, rfl⟩ := Prod.mk.inj hpair
      obtain ⟨body, b, others, rfl, hlisted, rfl⟩ := ih hothers
      refine ⟨_, a, _, rfl, .cons hbefore hused hafter hlisted, ?_⟩
      rw [htext, hrest₁, hrest₂, hcomma]
      simp only [List.append_assoc, List.cons_append]
    · obtain ⟨rfl, rfl⟩ := Prod.mk.inj (Option.some.inj h)
      refine ⟨_, a, [], rfl, .singleton hbefore hused hafter, ?_⟩
      rw [htext, hrest₁, hrest₂, hclose]
      simp only [List.append_assoc]

/-- What is read as a list is listed, up to what closes it. -/
lemma exists_listed_of_list (hsound : Sound item Item)
    (h : list item close text = some (found, rest)) :
    ∃ body, Listed Item body found ∧ text = body ++ close :: rest := by
  unfold list at h
  split at h
  · cases h
  rename_i c rest' hskip
  split_ifs at h with hclose
  · obtain ⟨rfl, rfl⟩ := Prod.mk.inj (Option.some.inj h)
    obtain ⟨blank, hblank, htext⟩ := exists_blank_append_skipBlanks text
    rw [hskip, hclose] at htext
    exact ⟨blank, .nil hblank, htext⟩
  · obtain ⟨body, _, _, _, hlisted, htext⟩ := exists_listed_of_items hsound h
    exact ⟨body, hlisted, htext⟩

/-- One item is read, up to the comma or what closes the list. -/
lemma items_succ_append {before after : List Char} {a : α} {stop : Char}
    (hcomplete : Complete item Item n) (hbegins : Begins Item close) (hbefore : Blank before)
    (h : Item text a) (hafter : Blank after) (hn : text.length ≤ n) (hblank : isBlank stop = false)
    (hnumber : isNumberChar stop = false) :
    items item close (bound + 1) (before ++ (text ++ (after ++ stop :: rest))) =
      if stop = ',' then
        (items item close bound rest).map fun (others, rest) => (a :: others, rest)
      else if stop = close then some ([a], rest)
      else none := by
  obtain ⟨c, text, rfl, hc, -⟩ := hbegins h
  have hitem := hcomplete h hn (hafter.endsNumber hnumber rest)
  rw [List.cons_append] at hitem ⊢
  simp only [items, skipBlanks_append hbefore hc, hitem, skipBlanks_append hafter hblank]

/-- Items that are listed are read, when there are less than the bound. -/
lemma items_append (hcomplete : Complete item Item n) (hbegins : Begins Item close)
    (hblank : isBlank close = false) (hnumber : isNumberChar close = false) (hcomma : close ≠ ',')
    (h : Listed Item body found) (hne : found ≠ []) (hn : body.length ≤ n)
    (hbound : body.length < bound) :
    items item close bound (body ++ close :: rest) = some (found, rest) := by
  -- The bound lasts since each round takes the comma after its item from the text.
  induction h generalizing bound with
  | nil => exact absurd rfl hne
  | singleton hbefore h hafter =>
    obtain ⟨bound, rfl⟩ := Nat.exists_eq_succ_of_ne_zero (Nat.ne_zero_of_lt hbound)
    simp only [List.length_append] at hn
    rw [List.append_assoc, List.append_assoc,
      items_succ_append hcomplete hbegins hbefore h hafter (by omega) hblank hnumber,
      if_neg hcomma, if_pos rfl]
  | @cons before text after others a b found hbefore h hafter hrest ih =>
    obtain ⟨bound, rfl⟩ := Nat.exists_eq_succ_of_ne_zero (Nat.ne_zero_of_lt hbound)
    simp only [List.length_append, List.length_cons] at hn hbound
    rw [List.append_assoc, List.append_assoc, List.append_assoc, List.cons_append,
      items_succ_append hcomplete hbegins hbefore h hafter (by omega) (by decide) (by decide),
      if_pos rfl, ih (List.cons_ne_nil b found) (by omega) (by omega), Option.map_some]

/-- What is listed begins, after blanks, with the first item. -/
lemma Listed.exists_cons (hbegins : Begins Item close) (h : Listed Item body found)
    (hne : found ≠ []) :
    ∃ before c more, body = before ++ c :: more ∧ Blank before ∧ isBlank c = false ∧
      c ≠ close := by
  cases h with
  | nil => exact absurd rfl hne
  | singleton hbefore h =>
    obtain ⟨c, text, rfl, hc, hclose⟩ := hbegins h
    exact ⟨_, c, _, rfl, hbefore, hc, hclose⟩
  | cons hbefore h =>
    obtain ⟨c, text, rfl, hc, hclose⟩ := hbegins h
    exact ⟨_, c, _, rfl, hbefore, hc, hclose⟩

/-- A list is read as the grammar has it. -/
lemma list_append (hcomplete : Complete item Item n) (hbegins : Begins Item close)
    (hblank : isBlank close = false) (hnumber : isNumberChar close = false) (hcomma : close ≠ ',')
    (h : Listed Item body found) (hn : body.length ≤ n) :
    list item close (body ++ close :: rest) = some (found, rest) := by
  by_cases hne : found = []
  · subst hne
    cases h with
    | nil hblank' => simp only [list, skipBlanks_append hblank' hblank, if_true]
  · obtain ⟨before, c, more, hbody, hbefore, hc, hclose⟩ := h.exists_cons hbegins hne
    have hskip : skipBlanks (body ++ close :: rest) = c :: (more ++ close :: rest) := by
      rw [hbody, List.append_assoc]
      exact skipBlanks_append hbefore hc _
    have hlength : body.length < (body ++ close :: rest).length := by
      rw [List.length_append, List.length_cons]
      omega
    simp only [list, hskip, if_neg hclose]
    exact items_append hcomplete hbegins hblank hnumber hcomma h hne hn hlength

end

/-! ### Members -/

section

variable {inner : Scanner Value} {n : ℕ}

/-- What is read as a member is one. -/
lemma sound_member (hsound : Sound inner Spells) : Sound (member inner) (Member Spells) := by
  intro text a rest h
  unfold member at h
  split at h
  · cases h
  rename_i key rest₁ hquoted
  obtain ⟨name, hname, rfl⟩ := quoted_eq_some_iff.mp hquoted
  split at h
  · rename_i rest₂ hskip
    obtain ⟨⟨v, rest₃⟩, hinner, hpair⟩ := Option.map_eq_some_iff.mp h
    obtain ⟨rfl, rfl⟩ := Prod.mk.inj hpair
    obtain ⟨before, hbefore, hrest₁⟩ := exists_blank_append_skipBlanks rest₁
    obtain ⟨after, hafter, hrest₂⟩ := exists_blank_append_skipBlanks rest₂
    obtain ⟨used, hused, hskip'⟩ := hsound hinner
    refine ⟨_, .mk hname hbefore hafter hused, ?_⟩
    rw [hrest₁, hskip, hrest₂, hskip']
    simp only [List.append_assoc, List.cons_append]
  · cases h

/-- A value begins with a character that is not blank, and does not close an array. -/
lemma begins_spells : Begins Spells ']' := by
  intro text v h
  cases h with
  | null => exact ⟨_, _, rfl, by decide⟩
  | true => exact ⟨_, _, rfl, by decide⟩
  | false => exact ⟨_, _, rfl, by decide⟩
  | number h =>
    obtain ⟨c, rest, rfl, hc⟩ := h.exists_cons
    refine ⟨c, rest, rfl, Bool.eq_false_iff.mpr fun hblank => ?_, ?_⟩
    · exact Bool.noConfusion (hc.symm.trans (isNumberChar_of_isBlank hblank))
    · rintro rfl
      exact absurd hc (by decide)
  | string h =>
    obtain ⟨body, rfl, -⟩ := h
    exact ⟨_, _, rfl, by decide⟩
  | array h => exact ⟨_, _, rfl, by decide⟩
  | object h => exact ⟨_, _, rfl, by decide⟩

/-- A member begins with a quote. -/
lemma begins_member : Begins (Member Spells) '\x7d' := by
  intro text member h
  obtain ⟨⟨body, rfl, -⟩, -, -, -⟩ := h
  exact ⟨_, _, rfl, by decide⟩

/-- Members are read, when the values are. -/
lemma complete_member (hcomplete : Complete inner Spells n) :
    Complete (member inner) (Member Spells) n := by
  intro used a rest h hlength hrest
  obtain ⟨hname, hbefore, hafter, hvalue⟩ := h
  rename_i name before after text key v
  obtain ⟨c, text, rfl, hc, -⟩ := begins_spells hvalue
  have hquoted : quoted (name ++ (before ++ ':' :: (after ++ c :: (text ++ rest)))) =
      some (key, before ++ ':' :: (after ++ c :: (text ++ rest))) :=
    quoted_eq_some_iff.mpr ⟨name, hname, rfl⟩
  have hinner : inner (c :: (text ++ rest)) = some (v, rest) := by
    simp only [List.length_append, List.length_cons] at hlength
    exact hcomplete hvalue (by rw [List.length_cons]; omega) hrest
  have hcolon : isBlank ':' = false := by decide
  simp only [List.append_assoc, List.cons_append, member, hquoted,
    skipBlanks_append hbefore hcolon, skipBlanks_append hafter hc, hinner, Option.map_some]

end

/-! ### Values -/

section

variable {inner : Scanner Value} {text used rest : List Char} {v : Value} {n fuel : ℕ}

/-- What is read as a value is one, when this is so of the values in it.  A number is as long as it
can be. -/
lemma exists_spells_of_valueOf (hsound : Sound inner Spells)
    (h : valueOf inner text = some (v, rest)) :
    ∃ used, Spells used v ∧ text = used ++ rest ∧ (v.isNumber = true → EndsNumber rest) := by
  unfold valueOf at h
  split at h
  · obtain ⟨rfl, rfl⟩ := Prod.mk.inj (Option.some.inj h)
    exact ⟨_, .null, rfl, nofun⟩
  · obtain ⟨rfl, rfl⟩ := Prod.mk.inj (Option.some.inj h)
    exact ⟨_, .true, rfl, nofun⟩
  · obtain ⟨rfl, rfl⟩ := Prod.mk.inj (Option.some.inj h)
    exact ⟨_, .false, rfl, nofun⟩
  · obtain ⟨⟨s, rest'⟩, hs, hpair⟩ := Option.map_eq_some_iff.mp h
    obtain ⟨rfl, rfl⟩ := Prod.mk.inj hpair
    obtain ⟨used, hused, htext⟩ := quoted_eq_some_iff.mp hs
    exact ⟨used, .string hused, htext, nofun⟩
  · obtain ⟨⟨found, rest'⟩, hfound, hpair⟩ := Option.map_eq_some_iff.mp h
    obtain ⟨rfl, rfl⟩ := Prod.mk.inj hpair
    obtain ⟨body, hbody, rfl⟩ := exists_listed_of_list hsound hfound
    refine ⟨_, .array hbody, ?_, nofun⟩
    rw [List.cons_append, List.append_assoc, List.singleton_append]
  · obtain ⟨⟨found, rest'⟩, hfound, hpair⟩ := Option.map_eq_some_iff.mp h
    obtain ⟨rfl, rfl⟩ := Prod.mk.inj hpair
    obtain ⟨body, hbody, rfl⟩ := exists_listed_of_list (sound_member hsound) hfound
    refine ⟨_, .object hbody, ?_, nofun⟩
    rw [List.cons_append, List.append_assoc, List.singleton_append]
  · obtain ⟨⟨q, rest'⟩, hq, hpair⟩ := Option.map_eq_some_iff.mp h
    obtain ⟨rfl, rfl⟩ := Prod.mk.inj hpair
    obtain ⟨used, hused, hrest, htext⟩ := numeral_eq_some_iff.mp hq
    exact ⟨used, .number hused, htext, fun _ => hrest⟩

/-- What begins as a number does is read as one. -/
lemma valueOf_cons_of_isNumberChar {c : Char} (h : isNumberChar c = true) (text : List Char) :
    valueOf inner (c :: text) =
      (numeral (c :: text)).map fun (q, rest) => (.number q, rest) := by
  unfold valueOf
  split
  case h_7 => rfl
  -- Nothing else begins with a character that a number may have.
  all_goals
    rename_i heq
    obtain ⟨rfl, rfl⟩ := List.cons.inj heq
    exact absurd h (by decide)

/-- A value is read, when the values in it are. -/
lemma valueOf_append (hcomplete : Complete inner Spells n) (h : Spells used v)
    (hlength : used.length ≤ n + 1) (hrest : v.isNumber = true → EndsNumber rest) :
    valueOf inner (used ++ rest) = some (v, rest) := by
  cases h with
  | null => rfl
  | true => rfl
  | false => rfl
  | @number _ q h =>
    obtain ⟨c, more, rfl, hc⟩ := h.exists_cons
    have hread : numeral (c :: (more ++ rest)) = some (q, rest) :=
      numeral_eq_some_iff.mpr ⟨c :: more, h, hrest rfl, rfl⟩
    rw [List.cons_append, valueOf_cons_of_isNumberChar hc, hread, Option.map_some]
  | @string _ s h =>
    obtain ⟨body, rfl, hbody⟩ := h
    have hread : quoted ('"' :: (body ++ ['"']) ++ rest) = some (s, rest) :=
      quoted_eq_some_iff.mpr ⟨_, ⟨body, rfl, hbody⟩, rfl⟩
    rw [List.cons_append] at hread ⊢
    rw [valueOf, hread, Option.map_some]
  | @array body found h =>
    -- The brackets are two characters more than the body, so the body is within the bound.
    have hbody : body.length ≤ n := by
      simp only [List.length_cons, List.length_append] at hlength
      omega
    rw [List.cons_append, List.append_assoc, List.singleton_append, valueOf,
      list_append hcomplete begins_spells (by decide) (by decide) (by decide) h hbody,
      Option.map_some]
  | @object body found h =>
    have hbody : body.length ≤ n := by
      simp only [List.length_cons, List.length_append] at hlength
      omega
    have hmember : Complete (member inner) (Member Spells) n := complete_member hcomplete
    rw [List.cons_append, List.append_assoc, List.singleton_append, valueOf,
      list_append hmember begins_member (by decide) (by decide) (by decide) h hbody,
      Option.map_some]

/-- What is read as a value is one. -/
theorem exists_spells_of_value (h : value fuel text = some (v, rest)) :
    ∃ used, Spells used v ∧ text = used ++ rest ∧ (v.isNumber = true → EndsNumber rest) := by
  induction fuel generalizing text v rest with
  | zero => cases h
  | succ fuel ih =>
    refine exists_spells_of_valueOf (fun text v rest h => ?_) h
    obtain ⟨used, hused, htext, -⟩ := ih h
    exact ⟨used, hused, htext⟩

/-- A value whose text is not longer than the fuel is read. -/
theorem value_append (h : Spells used v) (hlength : used.length ≤ fuel)
    (hrest : v.isNumber = true → EndsNumber rest) : value fuel (used ++ rest) = some (v, rest) := by
  -- The values in an array or object are shorter than its text by the brackets at least, so one
  -- round of fuel less is enough for them, whatever the nesting.
  induction fuel generalizing used v rest with
  | zero =>
    obtain ⟨c, text, rfl, -⟩ := begins_spells h
    exact absurd hlength (Nat.not_succ_le_zero _)
  | succ fuel ih =>
    have hcomplete : Complete (value fuel) Spells fuel :=
      fun used v rest h hlength hrest => ih h hlength fun _ => hrest
    exact valueOf_append hcomplete h hlength hrest

end

/-! ### Streams -/

section

variable {text : List Char} {values : List Value} {bound : ℕ}

/-- What is read as a stream is one. -/
lemma stream_of_documents (h : documents bound text = some values) : Stream text values := by
  induction bound generalizing text values with
  | zero => cases h
  | succ bound ih =>
    obtain ⟨blank, hblank, htext⟩ := exists_blank_append_skipBlanks text
    unfold documents at h
    split at h
    · rename_i hskip
      obtain rfl := Option.some.inj h
      rw [htext, hskip, List.append_nil]
      exact .nil hblank
    · rename_i c more hskip
      split at h
      · cases h
      rename_i v rest hvalue
      obtain ⟨others, hothers, rfl⟩ := Option.map_eq_some_iff.mp h
      obtain ⟨used, hused, hmore, hnumber⟩ := exists_spells_of_value hvalue
      rw [htext, hskip, hmore]
      exact .cons hblank hused hnumber (ih hothers)

/-- A stream that is shorter than the bound is read. -/
lemma Stream.documents_eq (h : Stream text values) (hbound : text.length < bound) :
    documents bound text = some values := by
  induction h generalizing bound with
  | nil hblank =>
    obtain ⟨bound, rfl⟩ := Nat.exists_eq_succ_of_ne_zero (Nat.ne_zero_of_lt hbound)
    simp only [documents, skipBlanks_of_blank hblank]
  | @cons before text rest v values hbefore h hnumber hrest ih =>
    obtain ⟨bound, rfl⟩ := Nat.exists_eq_succ_of_ne_zero (Nat.ne_zero_of_lt hbound)
    obtain ⟨c, text, rfl, hc, -⟩ := begins_spells h
    have hread : value (c :: text ++ rest).length (c :: text ++ rest) = some (v, rest) := by
      apply value_append h _ hnumber
      rw [List.length_append]
      exact Nat.le_add_right _ _
    simp only [List.length_append, List.length_cons] at hbound
    rw [List.cons_append] at hread ⊢
    simp only [documents, skipBlanks_append hbefore hc, hread]
    rw [ih (by omega), Option.map_some]

/-- The decoder finds the values that the grammar gives to a stream. -/
theorem decodeStream_eq_some_iff : decodeStream text = some values ↔ Stream text values := by
  constructor
  · intro h
    exact stream_of_documents h
  · intro h
    exact h.documents_eq (Nat.lt_succ_self _)

/-- A stream has only one list of values. -/
theorem Stream.unique {others : List Value} (h : Stream text values) (h' : Stream text others) :
    values = others :=
  Option.some.inj <|
    (decodeStream_eq_some_iff.mpr h).symm.trans (decodeStream_eq_some_iff.mpr h')

end

end UvaAnalysis.Json
