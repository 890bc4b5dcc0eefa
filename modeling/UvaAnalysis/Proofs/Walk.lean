import UvaAnalysis.Proofs.Place
import UvaAnalysis.Token.Expansion

/-!
# Where normalized paths lead

A path is walked from a base directory component by component: the root starts over, a name leads
down, and `..` leads up and stays at the root.  Looking up a file leads nowhere else
(`Files.eq_walk_of_find`).  What a walk comes to can be told from its `Route`: so many directories
up from the base, and then some names down.

Normalizing keeps the names, but of the `..` that lead up from the base it keeps only whether
their number is odd, since a `..` that was kept is taken back by the next one
(`collapse_eq_spelled`).  So a normalized path leads where the path leads if that is at most one
directory up, if the path is absolute, or if the base is so near to the root that it does not
matter, and never otherwise (`walk_normalize_iff`).
-/

namespace UvaAnalysis

namespace Path

/-! ### Walks and routes -/

/-- Where a component leads from a place. -/
def Component.walk (place : Place) : Component → Place
  | .root => []
  | .current => place
  | .parent => place.dropLast
  | .name text => place ++ [text]

/-- Where a path leads from a base directory. -/
def walk (base : Place) (p : Path) : Place :=
  p.components.foldl Component.walk base

/-- The directory of a file, by its path from a base directory: the path is walked up to its last
component. -/
def walkToDirectory (base : Place) (p : Path) : Place :=
  p.components.dropLast.foldl Component.walk base

/-- A way from a base directory: the number of directories to go up, and the names to go down from
there. -/
structure Route where
  up : ℕ
  down : Place

namespace Route

/-- Go on with a component that is not the root.  Two dots take back a name, if there is one. -/
def step (route : Route) : Component → Route
  | .parent => if route.down = [] then ⟨route.up + 1, []⟩ else ⟨route.up, route.down.dropLast⟩
  | .name text => ⟨route.up, route.down ++ [text]⟩
  | .root | .current => route

/-- The way that components describe. -/
def ofComponents (components : List Component) : Route :=
  components.foldl step ⟨0, []⟩

/-- Where a way leads from a base directory. -/
def target (route : Route) (base : Place) : Place :=
  base.take (base.length - route.up) ++ route.down

/-- What collapsing leaves of a way. -/
def spelled (route : Route) : List Component :=
  (if route.up % 2 = 1 then [.parent] else []) ++ route.down.map .name

end Route

variable {route : Route} {base : Place} {steps components : List Component} {c : Component}

/-- Going on with a component leads where it leads from the place that was reached. -/
lemma Route.target_step (hc : c = .current ∨ c.IsStep) :
    (route.step c).target base = c.walk (route.target base) := by
  obtain ⟨up, down⟩ := route
  rcases hc with rfl | hc
  · rfl
  · cases hc with
    | name _ => simp [step, target, Component.walk]
    | parent =>
      rcases List.eq_nil_or_concat down with rfl | ⟨names, name, rfl⟩
      · simp only [step, target, Component.walk, if_true, List.append_nil, List.dropLast_eq_take,
          List.length_take, List.take_take]
        congr 1
        omega
      · simp [step, target, Component.walk]

/-- Components lead where the way that they describe leads. -/
lemma foldl_walk_eq_target (h : ∀ c ∈ components, c = .current ∨ c.IsStep) (base : Place) :
    components.foldl Component.walk base = (Route.ofComponents components).target base := by
  have hfold {route : Route} :
      components.foldl Component.walk (route.target base) =
        (components.foldl Route.step route).target base := by
    induction components generalizing route with
    | nil => rfl
    | cons c components ih =>
      obtain ⟨hc, hrest⟩ := List.forall_mem_cons.mp h
      rw [List.foldl_cons, List.foldl_cons, ← Route.target_step hc, ih hrest]
  have hstart : Route.target ⟨0, []⟩ base = base := by simp [Route.target]
  rw [Route.ofComponents, ← hfold, hstart]

/-- A `.` is dropped when components are collapsed. -/
lemma collapseOnto_current (before : List Component) :
    Component.collapseOnto before .current = before := by
  unfold Component.collapseOnto
  rfl

/-- A name is kept when components are collapsed. -/
lemma collapseOnto_name (before : List Component) (text : String) :
    Component.collapseOnto before (.name text) = .name text :: before := by
  unfold Component.collapseOnto
  rfl

/-- Collapsing a component onto what collapsing left of a way, perhaps after the root. -/
lemma collapseOnto_spelled (hc : c = .current ∨ c.IsStep) {start : List Component}
    (hstart : start = [] ∨ start = [.root]) :
    Component.collapseOnto (start ++ route.spelled).reverse c =
      (start ++ (route.step c).spelled).reverse := by
  obtain ⟨up, down⟩ := route
  rcases hc with rfl | hc
  · rw [collapseOnto_current]
    rfl
  · cases hc with
    | name _ =>
      rw [collapseOnto_name]
      rcases Nat.mod_two_eq_zero_or_one up with hup | hup <;> simp [Route.step, Route.spelled, hup]
    | parent =>
      rcases List.eq_nil_or_concat down with rfl | ⟨names, name, rfl⟩
      · rcases Nat.mod_two_eq_zero_or_one up with hup | hup <;> rcases hstart with rfl | rfl <;>
          simp [Route.step, Route.spelled, Component.collapseOnto, Nat.add_mod, hup]
      · simp [Route.step, Route.spelled, Component.collapseOnto]

/-- Collapsing leaves what is left of the way, perhaps after the root. -/
lemma collapse_eq_spelled (h : ∀ c ∈ steps, c = .current ∨ c.IsStep) {start : List Component}
    (hstart : start = [] ∨ start = [.root]) :
    collapse (start ++ steps) = start ++ (Route.ofComponents steps).spelled := by
  have hfold {route : Route} :
      steps.foldl Component.collapseOnto (start ++ route.spelled).reverse =
        (start ++ (steps.foldl Route.step route).spelled).reverse := by
    induction steps generalizing route with
    | nil => rfl
    | cons c steps ih =>
      obtain ⟨hc, hrest⟩ := List.forall_mem_cons.mp h
      rw [List.foldl_cons, List.foldl_cons, collapseOnto_spelled hc hstart, ih hrest]
  have hbegin : start.foldl Component.collapseOnto [] =
      (start ++ Route.spelled ⟨0, []⟩).reverse := by
    rcases hstart with rfl | rfl <;> rfl
  rw [collapse, List.foldl_append, hbegin, hfold, List.reverse_reverse]
  rfl

/-- Walking what is left of a way from a base directory. -/
lemma foldl_walk_spelled (route : Route) (base : Place) :
    route.spelled.foldl Component.walk base = Route.target ⟨route.up % 2, route.down⟩ base := by
  have hnames (place : Place) :
      (route.down.map Component.name).foldl Component.walk place = place ++ route.down := by
    induction route.down generalizing place with
    | nil => simp
    | cons name names ih => rw [List.map_cons, List.foldl_cons, ih]; simp [Component.walk]
  rw [Route.spelled, List.foldl_append, hnames, Route.target]
  rcases Nat.mod_two_eq_zero_or_one route.up with hup | hup
  · rw [hup, if_neg (by decide)]
    simp
  · rw [hup, if_pos rfl]
    simp [Component.walk, List.dropLast_eq_take]

/-! ### Places that are kept -/

/-- Collapsing keeps the place that components lead to from a base directory: they start at the
root, they lead up from the base once at most, or the base is so near to the root that a single
`..` or none leads up as far. -/
def KeepsPlace (base : Place) (components : List Component) : Prop :=
  components.head? = some .root ∨ (Route.ofComponents components).up ≤ 1 ∨
    base.length ≤ (Route.ofComponents components).up % 2

instance (base : Place) (components : List Component) :
    Decidable (KeepsPlace base components) :=
  inferInstanceAs (Decidable (_ ∨ _))

/-- What is left of a way leads where the way leads if it goes up at most once, or if the base is
too near to the root for the rest to matter, and only then. -/
lemma Route.target_mod_two_iff :
    Route.target ⟨route.up % 2, route.down⟩ base = route.target base ↔
      route.up ≤ 1 ∨ base.length ≤ route.up % 2 := by
  rw [target, target, List.append_left_inj, List.take_eq_take_iff]
  dsimp only
  omega

/-- Collapsing components keeps the place that they lead to under the condition, and only then. -/
lemma Spelled.walk_collapse_iff (h : Spelled components) (base : Place) :
    (ofComponents (collapse components)).walk base = components.foldl Component.walk base ↔
      KeepsPlace base components := by
  rw [walk, h.normalize_ofComponents.1]
  cases h with
  | @absolute steps h =>
    refine iff_of_true ?_ (.inl rfl)
    have hcollapse := collapse_eq_spelled h (.inr rfl)
    rw [List.singleton_append] at hcollapse
    rw [hcollapse, List.singleton_append, List.foldl_cons, List.foldl_cons, foldl_walk_spelled,
      foldl_walk_eq_target h]
    simp [Component.walk, Route.target]
  | relative h =>
    have hcollapse := collapse_eq_spelled h (.inl rfl)
    rw [List.nil_append, List.nil_append] at hcollapse
    have hroot : components.head? ≠ some .root := by
      intro hhead
      rcases h _ (List.mem_of_head? hhead) with hc | hc <;> cases hc
    rw [hcollapse, foldl_walk_spelled, foldl_walk_eq_target h, Route.target_mod_two_iff,
      KeepsPlace]
    simp only [hroot, false_or]

/-- The components that an include leads to before they are collapsed. -/
def located (origin target : Path) : List Component :=
  if target.isAbsolute then target.components
  else origin.components.dropLast ++ target.components

/-- The path of an include is written with what those components collapse to. -/
lemma locate_eq_ofComponents (origin target : Path) :
    origin.locate target = ofComponents (collapse (origin.located target)) := by
  unfold locate located
  split_ifs
  · rfl
  · rfl

/-- Among the components that an include leads to the root can only come first. -/
lemma spelled_located (origin target : Path) : Spelled (origin.located target) := by
  unfold located
  split_ifs with htarget
  · exact spelled_components target
  · exact (spelled_components origin).dropLast_append (Bool.not_eq_true _ ▸ htarget)

/-- The components of an include lead where its target leads from the directory of the file. -/
lemma foldl_walk_located (origin target : Path) (base : Place) :
    (origin.located target).foldl Component.walk base =
      target.walk (origin.walkToDirectory base) := by
  unfold located
  split_ifs with htarget
  · rw [walk, components_of_isAbsolute htarget]
    rfl
  · rw [List.foldl_append]
    rfl

/-- The path of an include leads where its target leads under the condition, and only then. -/
lemma walk_locate_iff (origin target : Path) (base : Place) :
    (origin.locate target).walk base = target.walk (origin.walkToDirectory base) ↔
      KeepsPlace base (origin.located target) := by
  rw [locate_eq_ofComponents, ← foldl_walk_located origin target]
  exact (spelled_located origin target).walk_collapse_iff base

end Path

/-! ### Looking up a file -/

namespace Files

open UvaAnalysis.Path (Component)

variable {files : Files}

/-- Stretches that can be followed lead to where walking their components leads. -/
lemma eq_foldl_walk_of_foldlM {stretches : List String} {here there : Place × Entry}
    (h : stretches.foldlM files.follow here = .ok there) :
    there.1 = (stretches.filterMap Component.ofStretch?).foldl Component.walk here.1 := by
  induction stretches generalizing here with
  | nil =>
    obtain rfl := Except.ok.inj h
    rfl
  | cons stretch stretches ih =>
    obtain ⟨next, hfollow, hrest⟩ := exists_of_foldlM_cons h
    rw [ih hrest]
    rcases of_follow hfollow with ⟨hstretch, rfl⟩ | ⟨hstretch, rfl⟩ | ⟨hstretch, hnext, -⟩
    · rw [List.filterMap_cons_none hstretch]
    · rw [List.filterMap_cons_some hstretch]
      rfl
    · rw [List.filterMap_cons_some hstretch, hnext]
      rfl

/-- What is found by a path is where the path leads from the working directory. -/
theorem eq_walk_of_find {path : Path} {place : Place} {entry : Entry}
    (h : files.find path = .ok (place, entry)) : place = path.walk files.workingPlace := by
  have hplace := eq_foldl_walk_of_foldlM (foldlM_of_find h)
  rw [Path.walk]
  cases habsolute : path.isAbsolute with
  | true =>
    rw [habsolute, if_pos rfl] at hplace
    rw [Path.components_of_isAbsolute habsolute]
    exact hplace
  | false =>
    rw [habsolute, if_neg Bool.false_ne_true] at hplace
    rcases Path.components_of_not_isAbsolute habsolute with heq | heq
    · rw [heq]
      exact hplace
    · rw [heq]
      exact hplace

end Files

/-- Normalizing a path keeps the place that it leads to from a base directory exactly if the path is
absolute, leads at most one directory up from the base, or starts so near to the root that it does
not matter (`KeepsPlace`).  Includes are normalized too: the path that is read for an include leads
where its target leads from the directory of the including file exactly under that condition, and
what is read is the file there. -/
theorem walk_normalize_iff (files : Files) (base : Place) (p : Path) :
    (p.normalize.walk base = p.walk base ↔ Path.KeepsPlace base p.components) ∧
      ∀ directive target : Token,
        ((Token.includedPath directive target).walk files.workingPlace =
            Path.walk (directive.origin.walkToDirectory files.workingPlace) ⟨target.text⟩ ↔
          Path.KeepsPlace files.workingPlace (directive.origin.located ⟨target.text⟩)) ∧
        ∀ source, files.read (Token.includedPath directive target) = .ok source →
          files.entryAt? ((Token.includedPath directive target).walk files.workingPlace) =
            some (.file source) := by
  refine ⟨(Path.spelled_components p).walk_collapse_iff base, fun directive target => ⟨?_, ?_⟩⟩
  · exact Path.walk_locate_iff directive.origin ⟨target.text⟩ files.workingPlace
  · intro source hread
    obtain ⟨place, hfind⟩ := Files.exists_find_of_read hread
    rw [← Files.eq_walk_of_find hfind]
    exact (Files.entryAt?_of_find hfind).2

/-- An include of a relative path that leads up once from the working directory. -/
theorem walk_normalize_iff_beside :
    let files := (Files.empty ["home", "project"]).writeFile ⟨"/home/x.uva"⟩ (Utf8.encode "x")
    let directive : Token := ⟨⟨"lib/m.uva"⟩, ⟨1, 1, 0⟩, .directive, .plain, "include", 8⟩
    let target : Token := ⟨⟨"lib/m.uva"⟩, ⟨1, 10, 9⟩, .literal, .string, "../a/../../x.uva", 18⟩
    files.read (Token.includedPath directive target) = .ok (Utf8.encode "x") ∧
      files.entryAt?
          (Path.walk (directive.origin.walkToDirectory files.workingPlace) ⟨target.text⟩) =
        some (.file (Utf8.encode "x")) := by
  intro files directive target
  have hread : files.read (Token.includedPath directive target) = .ok (Utf8.encode "x") := by
    decide +kernel
  have hkeeps : Path.KeepsPlace files.workingPlace (directive.origin.located ⟨target.text⟩) := by
    decide +kernel
  obtain ⟨-, hincludes⟩ := walk_normalize_iff files files.workingPlace ⟨target.text⟩
  obtain ⟨hplace, hfile⟩ := hincludes directive target
  rw [← hplace.mpr hkeeps]
  exact ⟨hread, hfile _ hread⟩

/-- Two `..` at the beginning of a relative path take each other back, and a file in the working
directory is read instead of one that is two directories up and does not exist. -/
theorem walk_normalize_parents :
    let files := (Files.empty ["home", "project"]).writeFile ⟨"lib.uva"⟩ (Utf8.encode "hello")
    let main : Path := ⟨"main.uva"⟩
    let tokens := (Token.tokenize main (Utf8.encode "#include '../../lib.uva'")).value
    Path.walk (main.walkToDirectory files.workingPlace) ⟨"../../lib.uva"⟩ = ["lib.uva"] ∧
      files.entryAt? ["lib.uva"] = none ∧
      (Path.normalize ⟨"../../lib.uva"⟩).walk files.workingPlace =
        ["home", "project", "lib.uva"] ∧
      (Token.expand files main tokens).value.map Token.text = ["hello"] ∧
      (Token.expand files main tokens).faults = [] := by
  decide +kernel

end UvaAnalysis
