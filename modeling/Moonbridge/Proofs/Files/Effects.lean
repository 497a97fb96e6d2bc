import Moonbridge.Proofs.Files.Ways

/-!
# What saving does to a store

Making directories adds directories where there was nothing, at places on the way to the path, and
changes nothing else. So does a whole attempt to save a file that fails. One that succeeds changes
one more place: the path leads to the file that was saved.
-/

namespace Moonbridge.Files.Store

/-- Nothing changes but that directories appear at the places of some paths. -/
def Grows (paths : List String) (s s' : Store) : Prop :=
  ∀ place, s'.get? place = s.get? place ∨
    s.get? place = none ∧ s'.get? place = some .directory ∧ ∃ path ∈ paths, place = placeOf path

section Growth

variable {s s₁ s₂ : Store} {paths others : List String}

theorem Grows.refl (paths : List String) (s : Store) : Grows paths s s := fun _ => Or.inl rfl

/-- Growth after growth is growth at the same paths. -/
theorem Grows.trans (h : Grows paths s s₁) (h' : Grows paths s₁ s₂) : Grows paths s s₂ := by
  intro place
  rcases h place with hsame | ⟨hnone, hmade, hpath⟩
  · rcases h' place with hsame' | ⟨hnone', hmade', hpath'⟩
    · exact Or.inl (hsame'.trans hsame)
    · exact Or.inr ⟨hsame ▸ hnone', hmade', hpath'⟩
  · rcases h' place with hsame' | ⟨hnone', -, -⟩
    · exact Or.inr ⟨hnone, hsame'.trans hmade, hpath⟩
    · cases hmade.symm.trans hnone'

/-- What grows at some paths grows at any more of them. -/
theorem Grows.mono (h : Grows paths s s₁) (hsub : paths ⊆ others) : Grows others s s₁ := by
  intro place
  rcases h place with hsame | ⟨hnone, hmade, path, hpath, hplace⟩
  · exact Or.inl hsame
  · exact Or.inr ⟨hnone, hmade, path, hsub hpath, hplace⟩

/-- A directory is made where there was nothing. -/
theorem grows_of_makeDirectory {path : String} (h : s.makeDirectory path = .ok s₁) :
    Grows [path] s s₁ := by
  unfold makeDirectory at h
  cases hresolve : s.resolve path with
  | error refusal =>
    rw [hresolve] at h
    cases h
  | ok target =>
    obtain ⟨-, isNamed, -, rfl⟩ := exists_follow_of_resolve hresolve
    rw [hresolve] at h
    simp only [bind, Except.bind] at h
    split at h
    · rename_i hfree
      cases h
      have hnone : s.get? (placeOf path) = none := by
        simp only [Bool.and_eq_true, Option.isNone_iff_eq_none] at hfree
        exact hfree.2
      have hroot : placeOf path ≠ [] := by
        intro hroot
        simp [hroot, get?] at hnone
      intro place
      by_cases hplace : place = placeOf path
      · subst hplace
        exact Or.inr ⟨hnone, get?_put_self s .directory hroot, path, List.mem_singleton_self _, rfl⟩
      · exact Or.inl (get?_put_of_ne s .directory hplace)
    · cases h

end Growth

section Making

variable {α β : Type} {paths others : List String} {p : StateM Store α} {f : α → StateM Store β}

/-- A program on a store that only makes directories, at the places of some paths. -/
def OnlyMakes (paths : List String) (p : StateM Store α) : Prop :=
  ∀ s, Grows paths s (p.run s).2

/-- Two steps one after the other make directories only if each of them does. -/
theorem OnlyMakes.bind (hp : OnlyMakes paths p) (hf : ∀ a, OnlyMakes paths (f a)) :
    OnlyMakes paths (p >>= f) := fun s => (hp s).trans (hf _ _)

theorem OnlyMakes.pure (a : α) : OnlyMakes paths (Pure.pure a) := fun s => .refl paths s

/-- What makes directories at some paths makes them at any more of them. -/
theorem OnlyMakes.mono (hp : OnlyMakes paths p) (hsub : paths ⊆ others) : OnlyMakes others p :=
  fun s => (hp s).mono hsub

/-- A program goes on in the store that its first part leaves. -/
theorem run_bind_of_run {s s₁ : Store} {a : α} (h : p.run s = (a, s₁)) :
    (p >>= f).run s = (f a).run s₁ := by
  rw [StateT.run_bind, h]
  rfl

/-- An update that is refused leaves the store as it was. -/
theorem run_update (change : Store → Except Refusal Store) (s : Store) :
    (update change).run s =
      match change s with
      | .error refusal => (.error refusal, s)
      | .ok s' => (.ok (), s') := by
  unfold update
  rw [StateT.run_bind, StateT.run_get, pure_bind]
  cases change s <;> rfl

/-- Making a directory touches its own path only. -/
theorem onlyMakes_makeDirectory (path : String) : OnlyMakes [path] (disk.makeDirectory path) := by
  intro s
  have hrun : (disk.makeDirectory path).run s = _ := run_update (·.makeDirectory path) s
  rw [hrun]
  cases hmake : s.makeDirectory path with
  | error refusal => exact .refl _ s
  | ok s' => exact grows_of_makeDirectory hmake

theorem onlyMakes_isDirectory (path : String) : OnlyMakes paths (disk.isDirectory path) :=
  fun s => .refl paths s

theorem onlyMakes_isPresent (path : String) : OnlyMakes paths (disk.isPresent path) :=
  fun s => .refl paths s

/-- Ensuring one directory touches its own path only. -/
theorem onlyMakes_ensureOne (path : String) : OnlyMakes [path] (disk.ensureOne path) := by
  unfold Disk.ensureOne
  refine (onlyMakes_makeDirectory path).bind fun made => ?_
  cases made with
  | ok => exact .pure _
  | error refusal =>
    refine (onlyMakes_isDirectory path).bind fun present => ?_
    cases present with
    | true => exact .pure _
    | false => exact .pure _

/-- Making a directory and its parents makes directories at their places only. -/
theorem onlyMakes_ensure (paths : List String) : OnlyMakes paths (disk.ensure paths) := by
  induction paths with
  | nil => exact .pure _
  | cons path parents ih =>
    have hone : OnlyMakes (path :: parents) (disk.ensureOne path) :=
      (onlyMakes_ensureOne path).mono (by simp)
    cases parents with
    | nil => exact hone
    | cons parent parents =>
      rw [Disk.ensure]
      refine (onlyMakes_isPresent parent).bind fun present => ?_
      split
      · exact hone
      · refine (ih.mono (List.subset_cons_self _ _)).bind fun made => ?_
        -- However the parents fared, at most the directory itself is made.
        split
        · split
          · exact .pure _
          · split
            · exact .pure _
            · exact hone
        · split
          · exact .pure _
          · exact hone

end Making

section Saving

variable {s s' : Store} {path : String} {content : ByteArray}

/-- A file is read from where it was put, if the path leads there and no slash follows. -/
theorem read_put {isNamed : Bool} (hpath : path ≠ "")
    (hfollow : s.follow [] (components path) = .ok (placeOf path, isNamed))
    (hdirectory : s.get? (placeOf path) ≠ some .directory) (hslash : endsWithSlash path = false) :
    (s.put (placeOf path) (.file content)).read path = .ok content := by
  have hroot : placeOf path ≠ [] := by
    intro hroot
    simp [hroot, get?] at hdirectory
  have hresolve : (s.put (placeOf path) (.file content)).resolve path =
      .ok ⟨placeOf path, isNamed, false⟩ := by
    rw [resolve, if_neg hpath, follow_put hfollow hdirectory, hslash]
    rfl
  have hfind : (s.put (placeOf path) (.file content)).find path = .ok (.file content) := by
    rw [find, hresolve]
    simp [bind, Except.bind, get?_put_self s _ hroot, pure, Except.pure]
  rw [read, hfind]
  rfl

/-- A file that was written is found under its path, and nothing else has changed. -/
theorem write_eq_ok (h : s.write path content = .ok s') :
    s.get? (placeOf path) ≠ some .directory ∧ s' = s.put (placeOf path) (.file content) ∧
      s'.read path = .ok content := by
  unfold write at h
  cases hresolve : s.resolve path with
  | error refusal =>
    rw [hresolve] at h
    cases h
  | ok target =>
    obtain ⟨hpath, isNamed, hfollow, rfl⟩ := exists_follow_of_resolve hresolve
    rw [hresolve] at h
    simp only [bind, Except.bind] at h
    split at h
    · cases h
    · rename_i hslash
      split at h
      · cases h
      · rename_i hdirectory
        cases h
        refine ⟨hdirectory, rfl, read_put hpath hfollow hdirectory ?_⟩
        -- A way that ends with no name ends at a directory, so that the slash would count.
        cases isNamed with
        | true => simpa using hslash
        | false =>
          have hroot : ∀ p, p <+: [] → s.get? p = some .directory := by
            intro p hp
            rw [List.prefix_nil.mp hp]
            rfl
          exact absurd (follow_unnamed hfollow hroot) hdirectory

/-- Saving makes directories on the way first. Then it is refused, or the file is written. -/
theorem run_save (path : String) (content : ByteArray) (s : Store) :
    ∃ s₁, Grows (ancestors (parent path)) s s₁ ∧
      ((∃ denial, (disk.save path content).run s = (.error denial, s₁)) ∨
        ∃ s', s₁.write path content = .ok s' ∧ (disk.save path content).run s = (.ok (), s')) := by
  have hmakes := onlyMakes_ensure (ancestors (parent path)) s
  cases hmade : (disk.ensure (ancestors (parent path))).run s with
  | mk result s₁ =>
    rw [hmade] at hmakes
    refine ⟨s₁, hmakes, ?_⟩
    cases result with
    | error denial => exact Or.inl ⟨denial, run_bind_of_run hmade⟩
    | ok =>
      have hwrites : (disk.write path content).run s₁ = _ := run_update (·.write path content) s₁
      cases hwrite : s₁.write path content with
      | error refusal =>
        rw [hwrite] at hwrites
        exact Or.inl ⟨⟨refusal, path⟩, (run_bind_of_run hmade).trans (run_bind_of_run hwrites)⟩
      | ok s' =>
        rw [hwrite] at hwrites
        exact Or.inr ⟨s', rfl, (run_bind_of_run hmade).trans (run_bind_of_run hwrites)⟩

end Saving

end Moonbridge.Files.Store
