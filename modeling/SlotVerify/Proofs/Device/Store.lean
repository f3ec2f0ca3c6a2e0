import SlotVerify.Device.File
/-
  Paths through a directory when one of its files changes.

  Putting other contents behind a name changes what this name stands for and nothing else
  (`FileStore.find?_replace`).  A walk along a path looks at names only, so it takes the same way as
  before, and at its end finds the same place, but for the contents of this one file
  (`FileStore.lookup_replace`).
-/

namespace SlotVerify

/-- Another value behind a name: the first entry of each name decides. -/
theorem find?_map_replace {V : Type} (entries : List (String × V)) (name : String) (v : V)
    (q : String) :
    ((entries.map fun e => if e.1 == name then (name, v) else e).find? (·.1 == q)).map (·.2) =
      if q = name then ((entries.find? (·.1 == name)).map (·.2)).map fun _ => v
      else (entries.find? (·.1 == q)).map (·.2) := by
  -- the first entry has the name that is replaced, the name that is sought, or neither
  induction entries with
  | nil => simp
  | cons e rest ih =>
    obtain ⟨first, old⟩ := e
    rw [List.map_cons, List.find?_cons, List.find?_cons, List.find?_cons]
    by_cases hname : first = name
    · subst hname
      by_cases hq : q = first
      · subst hq
        simp
      · have hne : (first == q) = false := beq_false_of_ne fun h => hq h.symm
        rw [if_neg hq] at ih ⊢
        simpa [hne] using ih
    · have hnp : (first == name) = false := beq_false_of_ne hname
      by_cases hq : q = name
      · subst hq
        simpa [hnp] using ih
      · rw [if_neg hq] at ih ⊢
        by_cases hqn : first = q
        · subst hqn
          simp [hnp]
        · have hne : (first == q) = false := beq_false_of_ne hqn
          simpa [hnp, hne] using ih

namespace Device

/-- The place with other contents, if it is the file of this name. -/
def FileStore.Place.rewritten (name : String) (contents : ByteArray) :
    FileStore.Place → FileStore.Place
  | .file other old => .file other (if other = name then contents else old)
  | here => here

namespace FileStore

variable {s : FileStore} {name : String} {old contents : ByteArray}

theorem find?_replace (h : s.find? name = some (.file old)) (contents : ByteArray) (q : String) :
    (s.replace name contents).find? q =
      if q = name then some (.file contents) else s.find? q := by
  have hreplace := find?_map_replace s.entries name (.file contents) q
  rw [show (s.entries.find? (·.1 == name)).map (·.2) = some (.file old) from h] at hreplace
  exact hreplace

/-- The names in the directory stay what they are. -/
theorem any_replace (s : FileStore) (name : String) (contents : ByteArray) (ok : String → Bool) :
    (s.replace name contents).entries.any (fun e => ok e.1) = s.entries.any fun e => ok e.1 := by
  unfold replace
  rw [List.any_map]
  congr 1
  funext e
  by_cases hname : e.1 = name
  · simp [hname]
  · simp [hname]

theorem enter_replace (h : s.find? name = some (.file old)) (contents : ByteArray)
    (trail : List String) (c : String) :
    (s.replace name contents).enter trail c =
      (s.enter trail c).map (Place.rewritten name contents) := by
  unfold enter
  dsimp only
  generalize "/".intercalate (c :: trail).reverse = entered
  rw [find?_replace h, any_replace s name contents fun n => n.startsWith (entered ++ "/")]
  by_cases hname : entered = name
  · subst hname
    rw [if_pos rfl, h]
    simp [Except.map, Place.rewritten]
  · rw [if_neg hname]
    cases s.find? entered with
    | none =>
      dsimp only
      split <;> rfl
    | some entry =>
      cases entry with
      | file other => simp [Except.map, Place.rewritten, hname]
      | directory => rfl

theorem parent_rewritten (here : Place) (name : String) (contents : ByteArray) :
    (here.rewritten name contents).parent = here.parent.rewritten name contents := by
  cases here with
  | directory trail => cases trail <;> rfl
  | _ => rfl

theorem step_replace (h : s.find? name = some (.file old)) (contents : ByteArray) (here : Place)
    (c : String) :
    (s.replace name contents).step (here.rewritten name contents) c =
      (s.step here c).map (Place.rewritten name contents) := by
  have henter : ∀ trail, (s.replace name contents).step (.directory trail) c =
      (s.step (.directory trail) c).map (Place.rewritten name contents) := by
    intro trail
    unfold step
    dsimp only
    split
    · rfl
    · split
      · exact congrArg Except.ok (parent_rewritten (.directory trail) name contents)
      · split
        · rfl
        · exact enter_replace h contents trail c
  cases here with
  | file other old => rfl
  | directory trail => exact henter trail
  | outside =>
    show (s.replace name contents).step .outside c = _
    unfold step
    dsimp only
    split
    · rfl
    · split
      · rfl
      · split <;> rfl

/-- The same walk, by induction on the components of the path. -/
theorem lookup_replace (h : s.find? name = some (.file old)) (contents : ByteArray)
    (path : String) :
    (s.replace name contents).lookup path =
      (s.lookup path).map (Place.rewritten name contents) := by
  have hwalk : ∀ (components : List String) (here : Place),
      components.foldlM (s.replace name contents).step (here.rewritten name contents) =
        (components.foldlM s.step here).map (Place.rewritten name contents) := by
    intro components
    induction components with
    | nil => exact fun here => rfl
    | cons c rest ih =>
      intro here
      rw [List.foldlM_cons, List.foldlM_cons, step_replace h]
      cases s.step here c with
      | error e => rfl
      | ok next => exact ih next
  unfold lookup
  split
  · rfl
  · split
    · rfl
    · split
      · rfl
      · rw [← hwalk]
        congr 1
        split <;> rfl

/-- A place that the directory has. -/
def Has (s : FileStore) : Place → Prop
  | .file name contents => s.find? name = some (.file contents)
  | _ => True

theorem has_enter {trail : List String} {next : Place} {c : String}
    (h : s.enter trail c = .ok next) : s.Has next := by
  unfold enter at h
  dsimp only at h
  split at h
  · rename_i hfile
    cases h
    exact hfile
  · cases h
    trivial
  · split at h
    · cases h
      trivial
    · cases h

theorem has_step {here next : Place} {c : String} (h : s.step here c = .ok next)
    (hhere : s.Has here) : s.Has next := by
  have hparent : s.Has here.parent := by
    cases here with
    | directory trail => cases trail <;> trivial
    | _ => trivial
  cases here with
  | file other contents => cases h
  | outside =>
    unfold step at h
    dsimp only at h
    split at h
    · cases h
      trivial
    · split at h
      · cases h
        trivial
      · split at h <;> cases h
  | directory trail =>
    unfold step at h
    dsimp only at h
    split at h
    · cases h
      trivial
    · split at h
      · cases h
        exact hparent
      · split at h
        · cases h
        · exact has_enter h

/-- Where a walk has come to a file, the directory has it. -/
theorem find?_of_lookup {path : String} (h : s.lookup path = .ok (.file name contents)) :
    s.find? name = some (.file contents) := by
  have hwalk : ∀ (components : List String) (here : Place), s.Has here →
      components.foldlM s.step here = .ok (.file name contents) →
      s.Has (.file name contents) := by
    intro components
    induction components with
    | nil =>
      rintro here hhere ⟨⟩
      exact hhere
    | cons c rest ih =>
      intro here hhere hrest
      rw [List.foldlM_cons] at hrest
      cases hstep : s.step here c with
      | error e =>
        rw [hstep] at hrest
        cases hrest
      | ok next =>
        rw [hstep] at hrest
        exact ih next (has_step hstep hhere) hrest
  unfold lookup at h
  split at h
  · cases h
  · split at h
    · cases h
    · split at h
      · cases h
      · refine hwalk _ _ ?_ h
        split <;> trivial

/-- A file that has been given other contents is found with them where it was found before. -/
theorem lookup_replace_self {path : String} (h : s.lookup path = .ok (.file name old))
    (contents : ByteArray) :
    (s.replace name contents).lookup path = .ok (.file name contents) := by
  rw [lookup_replace (find?_of_lookup h), h]
  simp [Except.map, Place.rewritten]

end FileStore

end Device

end SlotVerify
