import Moonbridge.Files.Store

/-!
# The way to a path

A path leads through the places that the beginnings of its components name. Its parents name
such places only, because a parent is a beginning of the text up to a slash. Where a path is
followed successfully, everything on the way is a directory, and it ends at the place that the path
names.
-/

namespace Moonbridge.Files

section Components

/-- The components of a text that is given as its characters. -/
def componentsOf (text : List Char) : List String := (splitSlashes [] text).filter (· ≠ "")

/-- The components of a path are read from its characters. -/
theorem components_ofList (text : List Char) :
    components (String.ofList text) = componentsOf text := by
  rw [components, String.toList_ofList, componentsOf]

/-- A slash separates what stands around it, and the text behind it is split afresh. -/
theorem splitSlashes_append (last front back : List Char) :
    splitSlashes last (front ++ '/' :: back) = splitSlashes last front ++ splitSlashes [] back := by
  induction front generalizing last with
  | nil => simp [splitSlashes]
  | cons c front ih =>
    by_cases hc : c = '/'
    · simp [splitSlashes, hc, ih]
    · simp [splitSlashes, hc, ih]

/-- A slash separates the components on its sides. -/
theorem componentsOf_append (front back : List Char) :
    componentsOf (front ++ '/' :: back) = componentsOf front ++ componentsOf back := by
  rw [componentsOf, splitSlashes_append, List.filter_append]
  rfl

/-- A slash at the end of a path adds no component. -/
theorem componentsOf_append_slash (text : List Char) :
    componentsOf (text ++ ['/']) = componentsOf text := by
  rw [componentsOf_append]
  simp [componentsOf, splitSlashes]

/-- Slashes at the end add no component. -/
theorem componentsOf_dropSlashes (text : List Char) :
    componentsOf (text.dropWhile (· = '/')).reverse = componentsOf text.reverse := by
  induction text with
  | nil => rfl
  | cons c text ih =>
    by_cases hc : c = '/'
    · subst hc
      rw [List.dropWhile_cons_of_pos (by simp), ih, List.reverse_cons, componentsOf_append_slash]
    · rw [List.dropWhile_cons_of_neg (by simpa using hc)]

/-- The components of a parent are the first ones of the path. -/
theorem componentsOf_parentReversed (path : List Char) :
    componentsOf (parentReversed path).reverse <+: componentsOf path.reverse := by
  have hparent : componentsOf (parentReversed path).reverse =
      componentsOf (path.dropWhile (· ≠ '/')).reverse := by
    unfold parentReversed
    simp only []
    split
    · rfl
    · exact componentsOf_dropSlashes _
  rw [hparent]
  have hsplit := List.takeWhile_append_dropWhile (p := (· ≠ '/')) (l := path)
  cases hbefore : path.dropWhile (· ≠ '/') with
  | nil => exact List.nil_prefix
  | cons c before =>
    obtain rfl : c = '/' := by
      have hnot := List.head?_dropWhile_not (· ≠ '/') path
      rw [hbefore] at hnot
      simpa using hnot
    rw [hbefore] at hsplit
    rw [← hsplit, List.reverse_append, List.reverse_cons, componentsOf_append_slash,
      List.append_assoc, List.singleton_append, componentsOf_append]
    exact List.prefix_append _ _

/-- Each ancestor of a path consists of the first components of the path. -/
theorem components_ancestorsReversed (text : List Char) :
    ∀ path ∈ ancestorsReversed text, components path <+: componentsOf text.reverse := by
  fun_induction ancestorsReversed text with
  | case1 => simp
  | case2 text hne ih =>
    intro path hpath
    rcases List.mem_cons.mp hpath with rfl | hpath
    · simp only [components_ofList, List.prefix_rfl]
    · split at hpath
      · rename_i hshorter
        exact (ih hshorter path hpath).trans (componentsOf_parentReversed text)
      · cases hpath

/-- The parents of a path have the first ones of its components. -/
theorem components_of_mem_ancestors {path output : String}
    (h : path ∈ ancestors (parent output)) : components path <+: components output := by
  have hpath := components_ancestorsReversed _ path h
  have hparent := componentsOf_parentReversed output.toList.reverse
  rw [parent, String.toList_ofList, List.reverse_reverse] at hpath
  rw [List.reverse_reverse] at hparent
  exact hpath.trans hparent

end Components

namespace Store

/-- The place that components lead to from a given place. -/
def placeFrom (start : Place) (names : List String) : Place :=
  names.foldl (fun place name =>
    if name = "." then place else if name = ".." then place.dropLast else place ++ [name]) start

/-- The places on the way to a path: those that its first components name. -/
def OnTheWay (path : String) (place : Place) : Prop :=
  ∃ names, names <+: components path ∧ place = placeFrom [] names

/-- The parents of a path name places on the way to it. -/
theorem onTheWay_of_mem_ancestors {path output : String} (h : path ∈ ancestors (parent output)) :
    OnTheWay output (placeOf path) :=
  ⟨components path, components_of_mem_ancestors h, rfl⟩

section Following

variable {s : Store} {start place : Place} {names : List String} {isNamed : Bool}

/-- Components are followed to the place they name. -/
theorem follow_place (h : s.follow start names = .ok (place, isNamed)) :
    place = placeFrom start names := by
  fun_induction follow s start names with
  | case1 start => cases h; rfl
  | case2 start rest ih => simpa [placeFrom] using ih h
  | case3 start rest hdot ih => simpa [placeFrom] using ih h
  | case4 start name rest hdot hdots hlast =>
    obtain rfl := List.isEmpty_iff.mp hlast
    cases h
    simp [placeFrom, hdot, hdots]
  | case5 | case6 => cases h
  | case7 start name rest hdot hdots hlast hdirectory ih =>
    simpa [placeFrom, hdot, hdots] using ih h

/-- Where the last component is no name, the way ends at a directory. -/
theorem follow_unnamed (h : s.follow start names = .ok (place, false))
    (hstart : ∀ p, p <+: start → s.get? p = some .directory) : s.get? place = some .directory := by
  fun_induction follow s start names with
  | case1 start =>
    cases h
    exact hstart _ List.prefix_rfl
  | case2 start rest ih => exact ih h hstart
  | case3 start rest hdot ih =>
    exact ih h fun p hp => hstart p (hp.trans (List.dropLast_prefix start))
  | case4 | case5 | case6 => cases h
  | case7 start name rest hdot hdots hlast hdirectory ih =>
    refine ih h fun p hp => ?_
    rcases List.prefix_concat_iff.mp hp with rfl | hp
    · exact hdirectory
    · exact hstart p hp

/-- What is put where no directory is does not change the way there. -/
theorem follow_put (h : s.follow start names = .ok (place, isNamed))
    (hplace : s.get? place ≠ some .directory) (item : Item) :
    (s.put place item).follow start names = .ok (place, isNamed) := by
  fun_induction follow s start names with
  | case1 start => exact h
  | case2 start rest ih =>
    rw [follow, if_pos rfl]
    exact ih h
  | case3 start rest hdot ih =>
    rw [follow, if_neg hdot, if_pos rfl]
    exact ih h
  | case4 start name rest hdot hdots hlast =>
    rw [follow, if_neg hdot, if_neg hdots, if_pos hlast]
    exact h
  | case5 | case6 => cases h
  | case7 start name rest hdot hdots hlast hdirectory ih =>
    have hne : start ++ [name] ≠ place := by
      rintro rfl
      exact hplace hdirectory
    rw [follow, if_neg hdot, if_neg hdots, if_neg hlast, get?_put_of_ne s item hne, hdirectory]
    exact ih h

/-- A path that leads somewhere leads to the place it names. -/
theorem exists_follow_of_resolve {path : String} {target : Target}
    (h : s.resolve path = .ok target) : path ≠ "" ∧ ∃ isNamed,
      s.follow [] (components path) = .ok (placeOf path, isNamed) ∧
        target = ⟨placeOf path, isNamed, endsWithSlash path⟩ := by
  unfold resolve at h
  split at h
  · cases h
  · rename_i hpath
    refine ⟨hpath, ?_⟩
    cases hfollow : s.follow [] (components path) with
    | error refusal =>
      rw [hfollow] at h
      cases h
    | ok found =>
      obtain ⟨place, isNamed⟩ := found
      obtain rfl := follow_place hfollow
      rw [hfollow] at h
      exact ⟨isNamed, rfl, (Except.ok.inj h).symm⟩

end Following

end Store

end Moonbridge.Files
