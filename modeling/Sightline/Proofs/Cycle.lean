import Mathlib.Data.List.Rotate
import Mathlib.Data.List.Zip
import Sightline.Geometry.Vec

/-! Cycles given as lists. The pairs of neighbours do not depend on where one starts to read, so a statement
about one pair may be shown on a list that begins with it. A cycle that is cut open is a path, and one on
which a test turns out otherwise just twice falls into two paths. -/

namespace Sightline

variable {α β : Type} {l l' : List α} {x y : α}

theorem cyclicPairs_eq_zip (l : List α) : cyclicPairs l = l.zip (l.rotate 1) := by
  cases l <;> simp [cyclicPairs]

/-- The edges of a cycle are the same wherever one starts. -/
theorem cyclicPairs_rotate (l : List α) (n : Nat) :
    cyclicPairs (l.rotate n) = (cyclicPairs l).rotate n := by
  rw [cyclicPairs_eq_zip, cyclicPairs_eq_zip, List.rotate_rotate, Nat.add_comm, ← List.rotate_rotate]
  exact (List.zipWith_rotate_distrib Prod.mk l (l.rotate 1) n (List.length_rotate l 1).symm).symm

theorem cyclicPairs_perm (h : l ~r l') : (cyclicPairs l).Perm (cyclicPairs l') := by
  obtain ⟨n, rfl⟩ := h
  rw [cyclicPairs_rotate]
  exact (List.rotate_perm _ n).symm

theorem rotate_reverse_rotate (l : List α) : (l.rotate 1).reverse.rotate 1 = l.reverse := by
  cases l <;> simp

/-- Read backwards, a cycle has the same edges, each run through the other way. -/
theorem cyclicPairs_reverse (l : List α) :
    cyclicPairs l.reverse = ((cyclicPairs l).map Prod.swap).reverse.rotate 1 := by
  have hlength : (l.rotate 1).length = l.length := List.length_rotate l 1
  calc cyclicPairs l.reverse
    _ = ((l.rotate 1).reverse.rotate 1).zip (l.reverse.rotate 1) := by
      rw [cyclicPairs_eq_zip, rotate_reverse_rotate]
    _ = ((l.rotate 1).reverse.zip l.reverse).rotate 1 :=
      (List.zipWith_rotate_distrib Prod.mk _ _ 1 (by simp)).symm
    _ = ((l.rotate 1).zip l).reverse.rotate 1 := by
      rw [List.zip_eq_zipWith, List.zip_eq_zipWith, List.reverse_zipWith hlength]
    _ = ((cyclicPairs l).map Prod.swap).reverse.rotate 1 := by rw [cyclicPairs_eq_zip, List.zip_swap]

theorem cyclicPairs_map (f : α → β) (l : List α) :
    cyclicPairs (l.map f) = (cyclicPairs l).map (Prod.map f f) := by
  rw [cyclicPairs_eq_zip, cyclicPairs_eq_zip, ← List.map_rotate, List.zip_map]

theorem map_fst_cyclicPairs (l : List α) : (cyclicPairs l).map Prod.fst = l := by
  rw [cyclicPairs_eq_zip]
  exact List.map_fst_zip (List.length_rotate l 1).ge

theorem exists_mem_cyclicPairs (h : x ∈ l) : ∃ y, (x, y) ∈ cyclicPairs l := by
  rw [← map_fst_cyclicPairs l] at h
  obtain ⟨⟨_, y⟩, hy, rfl⟩ := List.mem_map.mp h
  exact ⟨y, hy⟩

theorem mem_of_mem_cyclicPairs (h : (x, y) ∈ cyclicPairs l) : x ∈ l ∧ y ∈ l := by
  rw [cyclicPairs_eq_zip] at h
  obtain ⟨hx, hy⟩ := List.of_mem_zip h
  exact ⟨hx, List.mem_rotate.mp hy⟩

theorem getElem?_cyclicPairs {i : Nat} :
    (cyclicPairs l)[i]? = some (x, y) ↔ l[i]? = some x ∧ l[(i + 1) % l.length]? = some y := by
  rw [cyclicPairs_eq_zip, List.getElem?_zip_eq_some]
  refine and_congr_right fun hx => ?_
  rw [List.getElem?_rotate (List.getElem?_eq_some_iff.mp hx).1]

theorem mem_cyclicPairs_cons {t s : List α} (h : t ++ [x] = y :: s) : (x, y) ∈ cyclicPairs (x :: t) := by
  have hpairs : cyclicPairs (x :: t) = (x :: t).zip (t ++ [x]) := rfl
  rw [hpairs, h, List.zip_cons_cons]
  exact .head _

theorem exists_isRotated_of_mem (h : (x, y) ∈ cyclicPairs l) :
    ∃ t s, l ~r x :: t ∧ t ++ [x] = y :: s := by
  obtain ⟨i, hi⟩ := List.mem_iff_getElem?.mp h
  obtain ⟨hx, hy⟩ := getElem?_cyclicPairs.mp hi
  have hlt : i < l.length := (List.getElem?_eq_some_iff.mp hx).1
  obtain ⟨t, ht⟩ : ∃ t, l.rotate i = x :: t := by
    rw [← List.head?_eq_some_iff, List.head?_rotate hlt, hx]
  have hnext : t ++ [x] = l.rotate (i + 1) := by
    rw [← List.rotate_rotate, ht, List.rotate_cons_succ, List.rotate_zero]
  have hhead : (t ++ [x]).head? = some y := by
    rw [hnext, List.head?_eq_getElem?, List.getElem?_rotate (by omega), Nat.zero_add, hy]
  obtain ⟨s, hs⟩ := List.head?_eq_some_iff.mp hhead
  exact ⟨t, s, ⟨i, ht⟩, hs⟩

theorem exists_next_pair (h : (x, y) ∈ cyclicPairs l) :
    ∃ z, ((x, y), (y, z)) ∈ cyclicPairs (cyclicPairs l) := by
  obtain ⟨i, hi⟩ := List.mem_iff_getElem?.mp h
  obtain ⟨hx, hy⟩ := getElem?_cyclicPairs.mp hi
  have hpos : 0 < l.length := Nat.zero_lt_of_lt (List.getElem?_eq_some_iff.mp hx).1
  obtain ⟨z, hz⟩ : ∃ z, l[((i + 1) % l.length + 1) % l.length]? = some z :=
    ⟨_, List.getElem?_eq_getElem (Nat.mod_lt _ hpos)⟩
  refine ⟨z, List.mem_iff_getElem?.mpr ⟨i, getElem?_cyclicPairs.mpr ⟨hi, ?_⟩⟩⟩
  rw [length_cyclicPairs]
  exact getElem?_cyclicPairs.mpr ⟨hy, hz⟩

theorem isRotated_flatMap (h : l ~r l') (f : α → List β) : l.flatMap f ~r l'.flatMap f := by
  obtain ⟨n, hn, rfl⟩ := List.isRotated_iff_mod.mp h
  rw [List.rotate_eq_drop_append_take hn, List.flatMap_append]
  have hsplit : l.flatMap f = (l.take n).flatMap f ++ (l.drop n).flatMap f := by
    rw [← List.flatMap_append, List.take_append_drop]
  rw [hsplit]
  exact List.isRotated_append

variable {f : α → List β} {u v : β}

/-- Neighbours within what one element gives. -/
theorem mem_cyclicPairs_flatMap (h : x ∈ l) (hx : f x = [u, v]) : (u, v) ∈ cyclicPairs (l.flatMap f) := by
  obtain ⟨before, after, rfl⟩ := List.append_of_mem h
  have hsplit : (before ++ x :: after).flatMap f = before.flatMap f ++ (u :: v :: after.flatMap f) := by
    simp [hx]
  rw [hsplit, (cyclicPairs_perm List.isRotated_append).mem_iff]
  exact mem_cyclicPairs_cons rfl

/-- Neighbours where what one element gives ends and what the next one gives begins. -/
theorem mem_cyclicPairs_flatMap_next (h : (x, y) ∈ cyclicPairs l) (hx : (f x).getLast? = some u)
    (hy : (f y).head? = some v) : (u, v) ∈ cyclicPairs (l.flatMap f) := by
  obtain ⟨t, s, hrot, hnext⟩ := exists_isRotated_of_mem h
  obtain ⟨pre, hx⟩ := List.getLast?_eq_some_iff.mp hx
  obtain ⟨post, hy⟩ := List.head?_eq_some_iff.mp hy
  have hsplit : (x :: t).flatMap f = pre ++ (u :: t.flatMap f) := by
    simp [hx]
  have hrot' : l.flatMap f ~r u :: t.flatMap f ++ pre := by
    refine (isRotated_flatMap hrot f).trans ?_
    rw [hsplit]
    exact List.isRotated_append
  have hfirst : t.flatMap f ++ pre ++ [u] = v :: (post ++ s.flatMap f) :=
    calc t.flatMap f ++ pre ++ [u] = (t ++ [x]).flatMap f := by simp [hx]
      _ = v :: (post ++ s.flatMap f) := by rw [hnext, List.flatMap_cons, hy, List.cons_append]
  exact (cyclicPairs_perm hrot').mem_iff.mpr (mem_cyclicPairs_cons hfirst)

def steps (path : List α) : List (α × α) := path.zip path.tail

@[simp] theorem steps_cons_cons (x y : α) (path : List α) :
    steps (x :: y :: path) = (x, y) :: steps (y :: path) := rfl

theorem steps_append (path path' : List α) (x : α) :
    steps (path ++ x :: path') = steps (path ++ [x]) ++ steps (x :: path') := by
  induction path with
  | nil => rfl
  | cons y path ih =>
    cases path with
    | nil => rfl
    | cons z path => simpa using ih

theorem cyclicPairs_cons (x : α) (path : List α) : cyclicPairs (x :: path) = steps (x :: path ++ [x]) := by
  have hsteps : steps (x :: path ++ [x]) = (x :: path ++ [x]).zip (path ++ [x]) := rfl
  have hzip : ((x :: path) ++ [x]).zip (path ++ [x] ++ []) = (x :: path).zip (path ++ [x]) ++ [x].zip [] :=
    List.zip_append (by simp)
  rw [hsteps, ← List.append_nil (path ++ [x]), hzip]
  simp [cyclicPairs]

/-- The pairs of a cycle that is put together from two paths, from `x` to `x'` and from `y` to `y'`. -/
theorem cyclicPairs_append {x' y' : α} {t t' s s' : List α} (hfirst : x :: t = t' ++ [x'])
    (hsecond : y :: s = s' ++ [y']) : cyclicPairs (x :: t ++ y :: s) =
      steps (x :: t) ++ (x', y) :: (steps (y :: s) ++ [(y', x)]) :=
  calc cyclicPairs (x :: t ++ y :: s)
    _ = steps (x :: t ++ (y :: s ++ [x])) := by
      rw [List.cons_append, cyclicPairs_cons, List.cons_append, List.cons_append, List.append_assoc]
    _ = steps (x :: t) ++ (x', y) :: steps (y :: s ++ [x]) := by
      rw [hfirst, List.append_assoc, List.singleton_append, steps_append, List.cons_append, steps_cons_cons]
    _ = steps (x :: t) ++ (x', y) :: (steps (y :: s) ++ [(y', x)]) := by
      rw [hsecond, List.append_assoc, List.singleton_append, steps_append]
      rfl

def changes (test : α → Bool) (pairs : List (α × α)) : Nat := pairs.countP fun e => test e.1 != test e.2

theorem eq_of_changes_eq_zero {test : α → Bool} {path : List α} (h : changes test (steps (x :: path)) = 0) :
    ∀ z ∈ x :: path, test z = test x := by
  induction path generalizing x with
  | nil => simp
  | cons y path ih =>
    rw [changes, steps_cons_cons, List.countP_cons] at h
    have hsame : test x = test y := by
      by_contra hne
      simp [hne] at h
    have hrest := ih (x := y) (Nat.eq_zero_of_add_eq_zero_right h)
    intro z hz
    rcases List.mem_cons.mp hz with rfl | hz
    · rfl
    · rw [hrest z hz, hsame]

/-- A path with one change is a path before and a path after it. -/
theorem exists_halves_of_path {test : α → Bool} {path : List α}
    (h : changes test (steps (x :: path)) = 1) : ∃ t y s, x :: path = x :: t ++ y :: s ∧
      (∀ z ∈ x :: t, test z = test x) ∧ ∀ z ∈ y :: s, test z = !test x := by
  induction path generalizing x with
  | nil => simp [changes, steps] at h
  | cons y path ih =>
    rw [changes, steps_cons_cons, List.countP_cons] at h
    by_cases hsame : test x = test y
    · simp only [hsame, bne_self_eq_false, Bool.false_eq_true, if_false, Nat.add_zero] at h
      obtain ⟨t, z, s, hpath, hbefore, hafter⟩ := ih h
      refine ⟨y :: t, z, s, by rw [hpath]; rfl, ?_, ?_⟩
      · intro z hz
        rcases List.mem_cons.mp hz with rfl | hz
        · rfl
        · rw [hbefore z hz, hsame]
      · rwa [hsame]
    · have hrest : changes test (steps (y :: path)) = 0 := by
        simp only [bne_iff_ne, ne_eq, hsame, not_false_eq_true, if_true] at h
        exact Nat.succ_injective h
      refine ⟨[], y, path, rfl, by simp, fun z hz => ?_⟩
      rw [eq_of_changes_eq_zero hrest z hz]
      exact Bool.eq_not.mpr (Ne.symm hsame)

/-- A cycle on which a test changes twice is, from some element on, a path that passes the test and a path
that does not. -/
theorem exists_halves {test : α → Bool} (h : changes test (cyclicPairs l) = 2) : ∃ x t y s,
    l ~r x :: t ++ y :: s ∧ (∀ z ∈ x :: t, test z = true) ∧ ∀ z ∈ y :: s, test z = false := by
  obtain ⟨⟨a, b⟩, hpair, hchange⟩ : ∃ e ∈ cyclicPairs l, (test e.1 != test e.2) = true :=
    List.countP_pos_iff.mp (by rw [changes] at h; omega)
  obtain ⟨t, s, hrot, hnext⟩ := exists_isRotated_of_mem hpair
  have hone : changes test (steps (b :: s)) = 1 := by
    rw [changes, (cyclicPairs_perm hrot).countP_eq, cyclicPairs_cons, List.cons_append, hnext,
      steps_cons_cons, List.countP_cons, if_pos hchange] at h
    exact Nat.succ_injective h
  obtain ⟨t', y, s', hpath, hbefore, hafter⟩ := exists_halves_of_path hone
  have hrot' : l ~r b :: t' ++ y :: s' := by
    rw [← hpath, ← hnext]
    exact hrot.trans (List.isRotated_append (l := [a]))
  cases hb : test b with
  | true => exact ⟨b, t', y, s', hrot', by simpa [hb] using hbefore, by simpa [hb] using hafter⟩
  | false =>
    exact ⟨y, s', b, t', hrot'.trans List.isRotated_append, by simpa [hb] using hafter,
      by simpa [hb] using hbefore⟩

end Sightline
