import Sightline.Flow.Search.Basic

/-! What is counted during a search, one at a time. Counters are words that wrap, so that they tell the number of
ticks only as far as a word can. While planes are held against windings the ticks keep an order: what is trimmed was
tested, what was tested met a plane, and after a clip there is nothing left to cut. -/

namespace Sightline

variable {R : Type}

inductive Tick where
  | planeTest
  | pass
  | check
  | tested (role : Role)
  | trimmed (role : Role)
  | clipped (role : Role)
  | chain
  | mightTest
  | finalTest
  | nothingNew
deriving DecidableEq

namespace Tick

def counters : Tick → Counters
  | planeTest => { planeTests := 1 }
  | pass => { passes := 1 }
  | check => { checks := 1 }
  | tested role => role.tested
  | trimmed role => role.trimmed
  | clipped role => role.clipped
  | chain => { chains := 1 }
  | mightTest => { mightTests := 1 }
  | finalTest => { finalTests := 1 }
  | nothingNew => { nothingNew := 1 }

def ofCut : Tick → Bool
  | planeTest => true
  | tested _ => true
  | trimmed _ => true
  | clipped _ => true
  | _ => false

end Tick

def Evidence.tick : Evidence → Tick
  | final _ => .finalTest
  | might _ => .mightTest

theorem Evidence.counters_tick (e : Evidence) : e.tick.counters = e.counted := by
  cases e <;> rfl

namespace Counters

def get (c : Counters) : Tick → UInt64
  | .planeTest => c.planeTests
  | .pass => c.passes
  | .check => c.checks
  | .tested .target => c.targetTests
  | .tested .source => c.sourceTests
  | .trimmed .target => c.targetTrims
  | .trimmed .source => c.sourceTrims
  | .clipped .target => c.targetClips
  | .clipped .source => c.sourceClips
  | .chain => c.chains
  | .mightTest => c.mightTests
  | .finalTest => c.finalTests
  | .nothingNew => c.nothingNew

def ofTicks : List Tick → Counters
  | [] => 0
  | t :: ticks => t.counters + ofTicks ticks

theorem get_zero (k : Tick) : (0 : Counters).get k = 0 := by
  rcases k with _ | _ | _ | ⟨_ | _⟩ | ⟨_ | _⟩ | ⟨_ | _⟩ | _ | _ | _ | _ <;> rfl

theorem get_add (a b : Counters) (k : Tick) : (a + b).get k = a.get k + b.get k := by
  rcases k with _ | _ | _ | ⟨_ | _⟩ | ⟨_ | _⟩ | ⟨_ | _⟩ | _ | _ | _ | _ <;> rfl

theorem get_counters (t k : Tick) : t.counters.get k = if t = k then 1 else 0 := by
  rcases t with _ | _ | _ | ⟨_ | _⟩ | ⟨_ | _⟩ | ⟨_ | _⟩ | _ | _ | _ | _ <;>
    rcases k with _ | _ | _ | ⟨_ | _⟩ | ⟨_ | _⟩ | ⟨_ | _⟩ | _ | _ | _ | _ <;> rfl

theorem ofTicks_singleton (t : Tick) : ofTicks [t] = t.counters := add_zero _

theorem ofTicks_pair (t t' : Tick) : ofTicks [t, t'] = t.counters + t'.counters :=
  congrArg (t.counters + ·) (add_zero _)

theorem ofTicks_append (l l' : List Tick) : ofTicks (l ++ l') = ofTicks l + ofTicks l' := by
  induction l with
  | nil => exact (zero_add _).symm
  | cons t l ih => rw [List.cons_append, ofTicks, ofTicks, ih, add_assoc]

theorem get_ofTicks (l : List Tick) (k : Tick) : (ofTicks l).get k = UInt64.ofNat (l.count k) := by
  induction l with
  | nil => exact get_zero k
  | cons t l ih =>
    rw [ofTicks, get_add, ih, get_counters, List.count_cons, UInt64.ofNat_add, UInt64.add_comm]
    by_cases h : t = k <;> simp [h]

end Counters

/-- Ticks of cuts that are made one after the other until nothing is left. `left` says whether something is. -/
structure Cuts (left : Bool) (l : List Tick) : Prop where
  only : ∀ t ∈ l, t.ofCut = true
  ended : l.count (.clipped .target) + l.count (.clipped .source) + left.toNat ≤ 1
  trimmed : ∀ role, l.count (.trimmed role) ≤ l.count (.tested role)
  tested : l.count (.tested .target) + l.count (.tested .source) ≤ l.count .planeTest

namespace Cuts

variable {left : Bool} {l l' : List Tick}

theorem nil (left : Bool) : Cuts left [] := ⟨by simp, by simpa using left.toNat_le, by simp, by simp⟩

theorem append (h : Cuts true l) (h' : Cuts left l') : Cuts left (l ++ l') := by
  obtain ⟨honly, hended, htrimmed, htested⟩ := h
  obtain ⟨honly', hended', htrimmed', htested'⟩ := h'
  rw [Bool.toNat_true] at hended
  refine ⟨List.forall_mem_append.mpr ⟨honly, honly'⟩, ?_, fun role => ?_, ?_⟩
  · simp only [List.count_append]
    omega
  · simp only [List.count_append]
    exact Nat.add_le_add (htrimmed role) (htrimmed' role)
  · simp only [List.count_append]
    omega

theorem passed : Cuts true [.planeTest] := ⟨by decide, by decide, by rintro (_ | _) <;> decide, by decide⟩

theorem uncut (role : Role) : Cuts true [.planeTest, .tested role] := by
  cases role <;> exact ⟨by decide, by decide, by rintro (_ | _) <;> decide, by decide⟩

theorem trim (role : Role) : Cuts true [.planeTest, .tested role, .trimmed role] := by
  cases role <;> exact ⟨by decide, by decide, by rintro (_ | _) <;> decide, by decide⟩

theorem behind (role : Role) : Cuts false [.planeTest, .clipped role] := by
  cases role <;> exact ⟨by decide, by decide, by rintro (_ | _) <;> decide, by decide⟩

theorem gone (role : Role) : Cuts false [.planeTest, .tested role, .clipped role] := by
  cases role <;> exact ⟨by decide, by decide, by rintro (_ | _) <;> decide, by decide⟩

end Cuts

variable [Scalar R]

def cutTicks (role : Role) (sphere : Sphere R) : List (Plane R) → Winding R → List Tick
  | [], _ => []
  | plane :: planes, w =>
    .planeTest :: match sphere.side plane with
    | .front => cutTicks role sphere planes w
    | .back => [.clipped role]
    | .on =>
      .tested role :: match w.cut plane false with
      | .whole w => cutTicks role sphere planes w
      | .trimmed w => .trimmed role :: cutTicks role sphere planes w
      | .gone => [.clipped role]

theorem ofTicks_cutTicks (role : Role) (sphere : Sphere R) (planes : List (Plane R)) (w : Winding R) :
    Counters.ofTicks (cutTicks role sphere planes w) = (cutByAll role sphere planes w).2 := by
  induction planes generalizing w with
  | nil => rfl
  | cons plane planes ih =>
    rw [cutTicks, cutByAll]
    cases sphere.side plane with
    | front => exact congrArg (_ + ·) (ih w)
    | back => exact congrArg (_ + ·) (Counters.add_zero _)
    | on =>
      cases w.cut plane false with
      | whole w =>
        dsimp only [Counters.ofTicks]
        rw [ih, Counters.add_assoc]
        rfl
      | trimmed w =>
        dsimp only [Counters.ofTicks]
        rw [ih, Counters.add_assoc, Counters.add_assoc]
        rfl
      | gone =>
        dsimp only [Counters.ofTicks]
        rw [Counters.add_zero, Counters.add_assoc]
        rfl

theorem cuts_cutTicks (role : Role) (sphere : Sphere R) (planes : List (Plane R)) (w : Winding R) :
    Cuts (cutByAll role sphere planes w).1.isSome (cutTicks role sphere planes w) := by
  induction planes generalizing w with
  | nil => exact .nil _
  | cons plane planes ih =>
    rw [cutTicks, cutByAll]
    cases sphere.side plane with
    | front => exact Cuts.passed.append (ih w)
    | back => exact .behind role
    | on =>
      dsimp only
      cases w.cut plane false with
      | whole w => exact (Cuts.uncut role).append (ih w)
      | trimmed w => exact (Cuts.trim role).append (ih w)
      | gone => exact .gone role

end Sightline
