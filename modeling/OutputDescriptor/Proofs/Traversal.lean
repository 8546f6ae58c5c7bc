import Mathlib.Data.List.Perm.Basic

/-!
Lists traversed by a function that may fail, such as texts read character by character.
-/

namespace OutputDescriptor

theorem mapM_cons_eq_some {α β : Type} {f : α → Option β} {x : α} {xs : List α} {ys : List β} :
    (x :: xs).mapM f = some ys ↔
      ∃ y rest, f x = some y ∧ xs.mapM f = some rest ∧ ys = y :: rest := by
  simp only [List.mapM_cons, Option.bind_eq_bind, Option.bind_eq_some_iff]
  constructor
  · rintro ⟨y, hy, rest, hrest, heq⟩
    cases heq
    exact ⟨y, rest, hy, hrest, rfl⟩
  · rintro ⟨y, rest, hy, hrest, rfl⟩
    exact ⟨y, hy, rest, hrest, rfl⟩

theorem mapM_cons_eq_ok {α β ε : Type} {f : α → Except ε β} {x : α} {xs : List α} {ys : List β} :
    (x :: xs).mapM f = .ok ys ↔
      ∃ y rest, f x = .ok y ∧ xs.mapM f = .ok rest ∧ ys = y :: rest := by
  rw [List.mapM_cons]
  cases hx : f x with
  | error error => simp [bind, Except.bind]
  | ok y =>
    cases hxs : xs.mapM f with
    | error error => simp [bind, Except.bind]
    | ok rest => simp [bind, Except.bind, pure, Except.pure, eq_comm]

theorem mapM_eq_some_mono {α β : Type} {f g : α → Option β} :
    ∀ {xs : List α} {ys : List β}, (∀ x ∈ xs, ∀ y, f x = some y → g x = some y) →
      xs.mapM f = some ys → xs.mapM g = some ys
  | [], _, _, h => by simpa using h
  | x :: xs, ys, hle, h => by
    obtain ⟨y, rest, hy, hrest, rfl⟩ := mapM_cons_eq_some.mp h
    refine mapM_cons_eq_some.mpr ⟨y, rest, hle x (by simp) y hy, ?_, rfl⟩
    exact mapM_eq_some_mono (fun x' hx' => hle x' (List.mem_cons_of_mem _ hx')) hrest

theorem isSome_mapM_iff {α β : Type} {f : α → Option β} {xs : List α} :
    (xs.mapM f).isSome = true ↔ ∀ x ∈ xs, (f x).isSome = true := by
  induction xs with
  | nil => simp
  | cons x xs ih =>
    rw [List.forall_mem_cons, ← ih, Option.isSome_iff_exists, Option.isSome_iff_exists,
      Option.isSome_iff_exists]
    simp only [mapM_cons_eq_some]
    constructor
    · rintro ⟨_, y, rest, hy, hrest, _⟩
      exact ⟨⟨y, hy⟩, rest, hrest⟩
    · rintro ⟨⟨y, hy⟩, rest, hrest⟩
      exact ⟨_, y, rest, hy, hrest, rfl⟩

/-- What is computed from a result, if there is one, is computed from a value. -/
theorem exists_ok_of_toOption_map {α β ε : Type} {result : Except ε α} {f : α → β} {y : β}
    (h : result.toOption.map f = some y) : ∃ value, result = .ok value ∧ f value = y := by
  cases result with
  | error error => cases h
  | ok value => exact ⟨value, rfl, Option.some.inj h⟩

/-! ### Order -/

section

variable {α β : Type} {f : α → Option β} {xs xs' : List α} {ys ys' : List β}

theorem mapM_eq_some_iff_forall₂ :
    xs.mapM f = some ys ↔ List.Forall₂ (fun x y => f x = some y) xs ys := by
  induction xs generalizing ys with
  | nil => simp [eq_comm]
  | cons x xs ih =>
    rw [mapM_cons_eq_some, List.forall₂_cons_left_iff]
    simp only [ih]

/-- In another order the same is read, in another order. -/
theorem mapM_of_perm (same : xs'.Perm xs) (h : xs.mapM f = some ys) :
    ∃ ys', xs'.mapM f = some ys' ∧ ys'.Perm ys := by
  obtain ⟨found, hfound, perm⟩ := List.perm_comp_forall₂ same (mapM_eq_some_iff_forall₂.mp h)
  exact ⟨found, mapM_eq_some_iff_forall₂.mpr hfound, perm⟩

/-- What is read comes in any order from what it is read from. -/
theorem exists_perm_of_mapM (same : ys'.Perm ys) (h : xs.mapM f = some ys) :
    ∃ xs' : List α, xs'.mapM f = some ys' ∧ xs'.Perm xs := by
  obtain ⟨found, hfound, perm⟩ :=
    List.perm_comp_forall₂ same (mapM_eq_some_iff_forall₂.mp h).flip
  exact ⟨found, mapM_eq_some_iff_forall₂.mpr hfound.flip, perm⟩

end

/-! ### Reading back -/

section

variable {α β : Type} {read? : α → Option β} {write : β → α}

/-- What can be read back one by one can be read back as a whole. -/
theorem mapM_map_of_read {ys : List β} (h : ∀ y ∈ ys, read? (write y) = some y) :
    (ys.map write).mapM read? = some ys := by
  induction ys with
  | nil => rfl
  | cons y ys ih =>
    have front := h y (by simp)
    have back := ih fun x hx => h x (by simp [hx])
    exact mapM_cons_eq_some.mpr ⟨y, ys, front, back, rfl⟩

theorem exists_of_mem_mapM {xs : List α} {ys : List β} (h : xs.mapM read? = some ys) :
    ∀ y ∈ ys, ∃ x ∈ xs, read? x = some y := by
  induction xs generalizing ys with
  | nil =>
    cases h
    simp
  | cons x xs ih =>
    obtain ⟨y, rest, hy, hrest, rfl⟩ := mapM_cons_eq_some.mp h
    intro z hz
    rcases List.mem_cons.mp hz with rfl | hz
    · exact ⟨x, by simp, hy⟩
    · obtain ⟨x', hx', hread⟩ := ih hrest z hz
      exact ⟨x', by simp [hx'], hread⟩

/-- What was read one by one can be written back as a whole. -/
theorem map_of_mapM {xs : List α} {ys : List β} (h : xs.mapM read? = some ys)
    (inverse : ∀ x ∈ xs, ∀ y, read? x = some y → write y = x) : ys.map write = xs := by
  induction xs generalizing ys with
  | nil =>
    cases h
    rfl
  | cons x xs ih =>
    obtain ⟨y, rest, hy, hrest, rfl⟩ := mapM_cons_eq_some.mp h
    rw [List.map_cons, inverse x (by simp) y hy, ih hrest fun x' hx' => inverse x' (by simp [hx'])]

theorem length_of_mapM {xs : List α} {ys : List β} (h : xs.mapM read? = some ys) :
    ys.length = xs.length := by
  induction xs generalizing ys with
  | nil =>
    cases h
    rfl
  | cons x xs ih =>
    obtain ⟨y, rest, hy, hrest, rfl⟩ := mapM_cons_eq_some.mp h
    rw [List.length_cons, List.length_cons, ih hrest]

end

end OutputDescriptor
