import UvaAnalysis.Proofs.SavedCopy
import UvaAnalysis.Proofs.Token.Sequence

/-!
# What becomes of directives

Every directive that an expansion meets, in its stream or in a file that it opens, either has the
tokens of a file put in its place or is refused with one fault.  Both are written down in the order
in which the directives are met (`Meets`), and the record explains all that the expansion comes to:
the tokens outside directives, here and in the files that were opened, and the faults
(`Accounts`).

The record is made along with the expansion, for one item after the other and then, by induction on
the room that is left, for the files below.
-/

namespace UvaAnalysis

/-- An absolute path that is not the root has something after the root. -/
lemma Path.body_ne_nil_of_not_sameAs_root {p : Path} (h : p.isAbsolute = true)
    (hroot : p.sameAs ⟨"/"⟩ = false) : p.body ≠ [] := by
  intro hbody
  have hcomponents : p.components = [.root] := by rw [components_of_isAbsolute h, hbody]
  rw [sameAs, hcomponents] at hroot
  revert hroot
  decide

namespace Token

/-! ### Directives and the tokens outside of them -/

/-- The tokens outside directives, when `before` is the token in front: those that are no directive
and no string literal right after an include directive. -/
def outsideAfter (before : Option Token) : List Token → List Token
  | [] => []
  | t :: rest =>
    if t.category = .directive ∨ (before.any isInclude ∧ t.isStringLiteral) then
      outsideAfter (some t) rest
    else t :: outsideAfter (some t) rest

/-- The tokens of a stream that stand outside directives. -/
def outside (tokens : List Token) : List Token :=
  outsideAfter none tokens

/-- The directives of a stream, each with the token behind it. -/
def directives : List Token → List (Token × Option Token)
  | [] => []
  | t :: rest =>
    if t.category = .directive then (t, rest.head?) :: directives rest else directives rest

section

variable {t directive target : Token} {before : Option Token} {rest tokens : List Token}

/-- What stands outside directives is a token of the stream, and no directive itself. -/
lemma of_mem_outsideAfter (h : t ∈ outsideAfter before tokens) :
    t ∈ tokens ∧ t.category ≠ .directive := by
  induction tokens generalizing before with
  | nil => cases h
  | cons u rest ih =>
    rw [outsideAfter] at h
    split_ifs at h with hinside
    · exact (ih h).imp_left (List.mem_cons_of_mem _)
    · rcases List.mem_cons.mp h with rfl | h
      · exact ⟨List.mem_cons_self .., fun hcategory => hinside (.inl hcategory)⟩
      · exact (ih h).imp_left (List.mem_cons_of_mem _)

/-- The token in front matters only if it is an include directive that takes its path from the
stream. -/
lemma outsideAfter_eq_outside
    (h : before.any isInclude = false ∨ tokens.head?.any isStringLiteral = false) :
    outsideAfter before tokens = outside tokens := by
  cases tokens with
  | nil => rfl
  | cons t rest =>
    have hfree : ¬(before.any isInclude = true ∧ t.isStringLiteral = true) := by
      rintro ⟨hinclude, hliteral⟩
      rcases h with h | h
      · rw [h] at hinclude
        cases hinclude
      · rw [List.head?_cons, Option.any_some, hliteral] at h
        cases h
    rw [outside, outsideAfter, outsideAfter]
    simp [hfree]

/-- A token that is no directive stands outside, and it takes nothing from behind it. -/
lemma outside_cons_token (ht : t.category ≠ .directive) :
    outside (t :: rest) = t :: outside rest := by
  have hrest : outsideAfter (some t) rest = outside rest :=
    outsideAfter_eq_outside (.inl (isInclude_of_category_ne ht))
  simp [outside, outsideAfter, ht, hrest]

/-- A directive without a path stands by itself: the token behind it may still be outside. -/
lemma outside_cons_directive (hdirective : directive.category = .directive)
    (hrest : directive.isInclude = false ∨ rest.head?.any isStringLiteral = false) :
    outside (directive :: rest) = outside rest := by
  rw [outside, outsideAfter, if_pos (.inl hdirective)]
  exact outsideAfter_eq_outside hrest

/-- An inclusion takes two tokens, and neither of them stands outside. -/
lemma outside_cons_inclusion (h : IsInclusion directive target) :
    outside (directive :: target :: rest) = outside rest := by
  have hnext := isInclude_of_category_ne (category_ne_of_isStringLiteral h.isStringLiteral)
  rw [outside, outsideAfter, if_pos (.inl (category_of_isInclude h.isInclude)), outsideAfter,
    if_pos (.inr ⟨h.isInclude, h.isStringLiteral⟩)]
  exact outsideAfter_eq_outside (.inl hnext)

/-- A token that is no directive adds nothing to the list of directives. -/
lemma directives_cons_token (ht : t.category ≠ .directive) :
    directives (t :: rest) = directives rest := by
  rw [directives, if_neg ht]

/-- An inclusion is one directive, since the string literal behind it is none. -/
lemma directives_cons_inclusion (h : IsInclusion directive target) :
    directives (directive :: target :: rest) = (directive, some target) :: directives rest := by
  rw [directives, if_pos (category_of_isInclude h.isInclude),
    directives_cons_token (category_ne_of_isStringLiteral h.isStringLiteral), List.head?_cons]

/-- Every directive is listed with the token behind it, whether it takes that token or not. -/
lemma directives_cons_directive (hdirective : directive.category = .directive) :
    directives (directive :: rest) = (directive, rest.head?) :: directives rest := by
  rw [directives, if_pos hdirective]

/-- The directives of a stream are among its tokens. -/
lemma mem_of_mem_directives {d : Token × Option Token} (h : d ∈ directives tokens) :
    d.1 ∈ tokens := by
  induction tokens with
  | nil => cases h
  | cons u rest ih =>
    rw [directives] at h
    split_ifs at h
    · rcases List.mem_cons.mp h with rfl | h
      · exact List.mem_cons_self ..
      · exact List.mem_cons_of_mem _ (ih h)
    · exact List.mem_cons_of_mem _ (ih h)

end

/-! ### What becomes of a directive -/

/-- What becomes of a directive. -/
inductive Fate where
  /-- The tokens of a file are put in its place, expanded in turn. -/
  | expanded (path : Path) (source : List UInt8)
  /-- Nothing but a fault is left of it. -/
  | refused (fault : Fault)

/-- The tokens of the file that a directive is expanded to. -/
def Fate.tokens : Fate → List Token
  | .expanded path source => (tokenize path source).value
  | .refused _ => []

/-- The faults that a directive adds: those of the lexer in the file that it is expanded to, or the
one that it is refused with. -/
def Fate.faults : Fate → List Fault
  | .expanded path source => (tokenize path source).faults
  | .refused fault => [fault]

/-- A directive and the token behind it include the file at `path`. -/
def Includes (directive : Token × Option Token) (path : Path) : Prop :=
  ∃ target, directive.2 = some target ∧ IsInclusion directive.1 target ∧
    path = includedPath directive.1 target

/-- A file may be opened while those on `stack` are being expanded: none of them is the same, and
they are not too many. -/
structure MayOpen (stack : List Path) (path : Path) : Prop where
  not_on_stack : stack.any (·.sameAs path) = false
  length_le : stack.length ≤ includeLimit

/-- Why a directive is refused while the files on `stack` are being expanded. -/
inductive Refuses (files : Files) (stack : List Path) : Token × Option Token → Fault → Prop where
  | unknown {directive : Token} {next : Option Token} (h : directive.isInclude = false) :
      Refuses files stack (directive, next) (.unknownDirective directive)
  | withoutPath {directive : Token} {next : Option Token} (h : directive.isInclude = true)
      (hnext : next.any isStringLiteral = false) :
      Refuses files stack (directive, next) (.includeWithoutPath directive)
  | cycle {d : Token × Option Token} {path : Path} (h : Includes d path)
      (hstack : stack.any (·.sameAs path) = true) : Refuses files stack d (.includeCycle path)
  | tooDeep {d : Token × Option Token} {path : Path} (h : Includes d path)
      (hstack : stack.any (·.sameAs path) = false) (hlength : includeLimit < stack.length) :
      Refuses files stack d (.includeTooDeep path)
  | unreadable {d : Token × Option Token} {path : Path} {cause : FileError} (h : Includes d path)
      (hopen : MayOpen stack path) (hread : files.read path = .error cause) :
      Refuses files stack d (.includeUnreadable path cause)

/-- The record of all directives that are met, from those that a stream has while the files on
`stack` are being expanded. -/
inductive Meets (files : Files) :
    (stack : List Path) → List (Token × Option Token) → List (Token × Fate) → Prop where
  | nil {stack : List Path} : Meets files stack [] []
  | refused {stack : List Path} {d : Token × Option Token} {fault : Fault}
      {pending : List (Token × Option Token)} {log : List (Token × Fate)}
      (h : Refuses files stack d fault) (hrest : Meets files stack pending log) :
      Meets files stack (d :: pending) ((d.1, .refused fault) :: log)
  | expanded {stack : List Path} {d : Token × Option Token} {path : Path} {source : List UInt8}
      {pending : List (Token × Option Token)} {inner log : List (Token × Fate)}
      (h : Includes d path) (hopen : MayOpen stack path) (hread : files.read path = .ok source)
      (hinner : Meets files (path :: stack) (directives (tokenize path source).value) inner)
      (hrest : Meets files stack pending log) :
      Meets files stack (d :: pending) ((d.1, .expanded path source) :: (inner ++ log))

variable {files : Files} {stack : List Path} {pending : List (Token × Option Token)}
  {log inner : List (Token × Fate)} {path : Path} {source : List UInt8}

/-- A file that is expanded was read. -/
lemma Meets.read_eq (h : Meets files stack pending log) {directive : Token}
    (hmem : (directive, .expanded path source) ∈ log) : files.read path = .ok source := by
  induction h with
  | nil => cases hmem
  | refused _ _ ih =>
    rcases List.mem_cons.mp hmem with heq | hmem
    · cases heq
    · exact ih hmem
  | expanded _ _ hread _ _ ihinner ih =>
    rcases List.mem_cons.mp hmem with heq | hmem
    · cases heq
      exact hread
    · rcases List.mem_append.mp hmem with hmem | hmem
      · exact ihinner hmem
      · exact ih hmem

/-- The files that are expanded have absolute paths if those of the directives at hand are absolute
and have a directory. -/
lemma Meets.isAbsolute (h : Meets files stack pending log)
    (hpending : ∀ d ∈ pending, d.1.origin.isAbsolute = true ∧ d.1.origin.body ≠ [])
    {directive : Token} (hmem : (directive, .expanded path source) ∈ log) :
    path.isAbsolute = true := by
  induction h with
  | nil => cases hmem
  | refused _ _ ih =>
    rcases List.mem_cons.mp hmem with heq | hmem
    · cases heq
    · exact ih (List.forall_mem_cons.mp hpending).2 hmem
  | @expanded stack d opened content pending inner log h _ hread _ _ ihinner ih =>
    obtain ⟨⟨horigin, hbody⟩, hpending⟩ := List.forall_mem_cons.mp hpending
    obtain ⟨target, -, -, rfl⟩ := h
    have hopened := Path.isAbsolute_locate horigin hbody ⟨target.text⟩
    rcases List.mem_cons.mp hmem with heq | hmem
    · cases heq
      exact hopened
    · rcases List.mem_append.mp hmem with hmem | hmem
      · -- A file that can be read is not the root, so the includes in it start from its directory.
        refine ihinner (fun inside hinside => ?_) hmem
        obtain ⟨_, hfind⟩ := Files.exists_find_of_read hread
        rw [(readFrom_of_mem_tokenize (mem_of_mem_directives hinside)).origin_eq]
        exact ⟨hopened, Files.body_ne_nil_of_find hopened hfind⟩
      · exact ih hpending hmem

/-! ### What an expansion comes to -/

/-- The record explains what a stream comes to that has the tokens `kept` outside directives and the
directives `pending`. -/
structure Accounts (files : Files) (stack : List Path) (kept : List Token)
    (pending : List (Token × Option Token)) (result : Salvage (List Token))
    (log : List (Token × Fate)) : Prop where
  /-- What stands outside directives is kept, in its order. -/
  sublist : kept.Sublist result.value
  meets : Meets files stack pending log
  /-- All other tokens stand outside directives in the files that were opened. -/
  perm : result.value.Perm (kept ++ log.flatMap fun entry => outside entry.2.tokens)
  faults_eq : result.faults = log.flatMap fun entry => entry.2.faults

variable {kept tokens : List Token} {result content : Salvage (List Token)}
  {d : Token × Option Token}

/-- An empty stream comes to nothing, and there is nothing to record. -/
lemma accounts_nil : Accounts files stack [] [] ⟨[], []⟩ [] :=
  ⟨List.Sublist.refl [], .nil, List.Perm.refl [], rfl⟩

/-- A token in front that is no directive is kept, and leaves no entry in the record. -/
lemma Accounts.token (h : Accounts files stack kept pending result log) (t : Token) :
    Accounts files stack (t :: kept) pending (⟨[t], []⟩ ++ result) log :=
  ⟨h.sublist.cons_cons t, h.meets, h.perm.cons t, h.faults_eq⟩

/-- A directive in front that is refused leaves one entry, and only its fault is left of it. -/
lemma Accounts.refused (h : Accounts files stack kept pending result log) {fault : Fault}
    (hd : Refuses files stack d fault) :
    Accounts files stack kept (d :: pending) (⟨[], [fault]⟩ ++ result)
      ((d.1, .refused fault) :: log) :=
  ⟨h.sublist, .refused hd h.meets, h.perm, congrArg (fault :: ·) h.faults_eq⟩

/-- A directive in front that is expanded leaves one entry, and behind it the record of the file
that stands in its place. -/
lemma Accounts.expanded (h : Accounts files stack kept pending result log)
    (hd : Includes d path) (hopen : MayOpen stack path) (hread : files.read path = .ok source)
    (hinner : Accounts files (path :: stack) (outside (tokenize path source).value)
      (directives (tokenize path source).value) content inner) :
    Accounts files stack kept (d :: pending)
      (⟨content.value, (tokenize path source).faults ++ content.faults⟩ ++ result)
      ((d.1, .expanded path source) :: (inner ++ log)) where
  sublist := h.sublist.trans (List.sublist_append_right _ _)
  meets := .expanded hd hopen hread hinner.meets h.meets
  perm := by
    rw [List.flatMap_cons, List.flatMap_append, ← List.append_assoc (outside _)]
    exact (hinner.perm.append h.perm).trans (List.perm_append_comm_assoc _ _ _)
  faults_eq := by
    rw [List.flatMap_cons, List.flatMap_append, ← hinner.faults_eq, ← h.faults_eq,
      ← List.append_assoc]
    rfl

/-- Every stream has a record if every file that is included and may be open has one for what stands
in its place. -/
lemma exists_accounts_of_content {room : ℕ}
    (hcontent : ∀ {d path kept pending result log}, Includes d path →
      stack.any (·.sameAs path) = false → Accounts files stack kept pending result log →
        ∃ log', Accounts files stack kept (d :: pending)
          (contentOf files room stack path ++ result) log') :
    ∃ log, Accounts files stack (outside tokens) (directives tokens)
      (expandWithin files room stack tokens) log := by
  rw [expandWithin_eq]
  have hdivides := divides_ofTokens tokens
  generalize Item.ofTokens tokens = items at hdivides
  induction hdivides with
  | nil => exact ⟨[], accounts_nil⟩
  | token ht _ ih =>
    obtain ⟨log, ih⟩ := ih
    rw [outside_cons_token ht, directives_cons_token ht]
    exact ⟨log, ih.token _⟩
  | @inclusion directive target rest items hinclusion _ ih =>
    obtain ⟨log, ih⟩ := ih
    -- Only here more than one token is taken, and only here a file may be opened.
    have hd : Includes (directive, some target) (includedPath directive target) :=
      ⟨target, rfl, hinclusion, rfl⟩
    rw [outside_cons_inclusion hinclusion, directives_cons_inclusion hinclusion,
      Salvage.flatMap_cons, Item.expand]
    cases hstack : stack.any (·.sameAs (includedPath directive target)) with
    | true => exact ⟨_, ih.refused (.cycle hd hstack)⟩
    | false => exact hcontent hd hstack ih
  | @includeWithoutPath directive rest items hdirective hrest _ ih =>
    obtain ⟨log, ih⟩ := ih
    have hcategory := category_of_isInclude hdirective
    rw [outside_cons_directive hcategory (.inr hrest), directives_cons_directive hcategory]
    exact ⟨_, ih.refused (.withoutPath hdirective hrest)⟩
  | @unknown directive rest items hdirective hinclude _ ih =>
    obtain ⟨log, ih⟩ := ih
    rw [outside_cons_directive hdirective (.inl hinclude), directives_cons_directive hdirective]
    exact ⟨_, ih.refused (.unknown hinclude)⟩

/-- Every expansion has a record, at any depth of includes. -/
theorem exists_accounts (files : Files) (room : ℕ) (stack : List Path) (tokens : List Token)
    (hroom : stack.length + room = includeLimit + 1) :
    ∃ log, Accounts files stack (outside tokens) (directives tokens)
      (expandWithin files room stack tokens) log := by
  induction room generalizing stack tokens with
  | zero =>
    -- Without room the stack has more files than the limit, since it began with one.
    refine exists_accounts_of_content fun hd hstack h => ⟨_, h.refused (.tooDeep hd hstack ?_)⟩
    omega
  | succ room ih =>
    refine exists_accounts_of_content fun {d path} kept pending result log hd hstack h => ?_
    have hopen : MayOpen stack path := ⟨hstack, by omega⟩
    cases hread : files.read path with
    | error cause =>
      have hfault : contentOf files (room + 1) stack path =
          ⟨[], [.includeUnreadable path cause]⟩ := by rw [contentOf, hread]
      rw [hfault]
      exact ⟨_, h.refused (.unreadable hd hopen hread)⟩
    | ok source =>
      have hbelow : (path :: stack).length + room = includeLimit + 1 := by
        rw [List.length_cons]
        omega
      obtain ⟨inner, hinner⟩ := ih (path :: stack) (tokenize path source).value hbelow
      rw [contentOf_of_read_eq_ok hread]
      exact ⟨_, h.expanded hd hopen hread hinner⟩

/-! ### Where the tokens of an expansion come from -/

/-- Where all that an expansion comes to is from, by a record of the directives that it met. -/
structure Explains (files : Files) (primary : Path) (tokens : List Token)
    (result : Salvage (List Token)) (log : List (Token × Fate)) : Prop where
  no_directive : ∀ t ∈ result.value, t.category ≠ .directive
  /-- What stands outside directives is kept, in its order. -/
  sublist : (outside tokens).Sublist result.value
  /-- All other tokens stand outside directives in the files that were opened. -/
  perm : result.value.Perm (outside tokens ++ log.flatMap fun entry => outside entry.2.tokens)
  /-- The record has every directive of the stream and of the files that were opened. -/
  meets : Meets files [primary.normalize] (directives tokens) log
  faults_eq : result.faults = log.flatMap fun entry => entry.2.faults
  /-- A file that was opened was read, and what comes from it are tokens of its content with the
  file as their origin. -/
  opened : ∀ directive path source, (directive, .expanded path source) ∈ log →
    files.read path = .ok source ∧
      ∀ t ∈ outside (tokenize path source).value,
        t ∈ (tokenize path source).value ∧ t.origin = path
  /-- Files are opened by absolute paths if that is how the stream names its own. -/
  absolute : (∀ t ∈ tokens, t.origin.isAbsolute = true ∧ t.origin.sameAs ⟨"/"⟩ = false) →
    ∀ directive path source, (directive, .expanded path source) ∈ log → path.isAbsolute = true

/-- All that an expansion comes to is explained by what becomes of the directives that it meets. -/
theorem expand_explained (files : Files) (primary : Path) (tokens : List Token) :
    ∃ log, Explains files primary tokens (expand files primary tokens) log := by
  obtain ⟨log, h⟩ := exists_accounts files includeLimit [primary.normalize] tokens
    (Nat.add_comm 1 includeLimit)
  refine ⟨log, ?_, h.sublist, h.perm, h.meets, h.faults_eq, ?_, ?_⟩
  · intro t ht
    rcases List.mem_append.mp (h.perm.mem_iff.mp ht) with ht | ht
    · exact (of_mem_outsideAfter ht).2
    · obtain ⟨entry, -, ht⟩ := List.mem_flatMap.mp ht
      exact (of_mem_outsideAfter ht).2
  · intro directive path source hmem
    refine ⟨h.meets.read_eq hmem, fun t ht => ?_⟩
    have hlexed := (of_mem_outsideAfter ht).1
    exact ⟨hlexed, (readFrom_of_mem_tokenize hlexed).origin_eq⟩
  · intro horigins directive path source hmem
    refine h.meets.isAbsolute (fun d hd => ?_) hmem
    obtain ⟨habsolute, hroot⟩ := horigins d.1 (mem_of_mem_directives hd)
    exact ⟨habsolute, Path.body_ne_nil_of_not_sameAs_root habsolute hroot⟩

/-- A file that is included and has a directive of its own, which is refused. -/
theorem expand_explained_nested :
    let main : Path := ⟨"/home/project/m.uva"⟩
    let files := (Files.empty ["home", "project"]).writeFile ⟨"a.uva"⟩
      (Utf8.encode "y #include 'm.uva'")
    let tokens := (tokenize main (Utf8.encode "x #include 'a.uva' z")).value
    (∀ t ∈ tokens, t.origin.isAbsolute = true ∧ t.origin.sameAs ⟨"/"⟩ = false) ∧
      (expand files main tokens).value.map text = ["x", "y", "z"] ∧
      (expand files main tokens).faults = [.includeCycle main] ∧
      ∃ log, Explains files main tokens (expand files main tokens) log ∧
        ∀ directive path source, (directive, .expanded path source) ∈ log →
          path.isAbsolute = true := by
  intro main files tokens
  have horigins : ∀ t ∈ tokens, t.origin.isAbsolute = true ∧ t.origin.sameAs ⟨"/"⟩ = false := by
    decide +kernel
  obtain ⟨log, h⟩ := expand_explained files main tokens
  exact ⟨horigins, by decide +kernel, by decide +kernel, log, h, h.absolute horigins⟩

/-- The root has no directory, so an include in a stream of that name starts from the working
directory, by a path that is not absolute. -/
theorem expand_from_root :
    let files := (Files.empty ["home", "project"]).writeFile ⟨"a.uva"⟩ (Utf8.encode "x")
    let tokens := (tokenize ⟨"/"⟩ (Utf8.encode "#include 'a.uva'")).value
    (∀ t ∈ tokens, t.origin.isAbsolute = true) ∧
      ∃ t ∈ (expand files ⟨"/"⟩ tokens).value, t ∉ tokens ∧ t.origin.isAbsolute = false := by
  decide +kernel

end Token

end UvaAnalysis
