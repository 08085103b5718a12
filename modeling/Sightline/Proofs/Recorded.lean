import Mathlib.Algebra.GroupWithZero.Nat
import Sightline.Proofs.Narrowing
import Sightline.Proofs.Ticks

/-! What is done at a desk, written down as it is done: every tick, and the lists of planes in use each time after
one was taken or given back. The record changes nothing. A recorded attempt leaves what the attempt leaves, on the
same desk, and the record of a move accounts for all that the move changes in counters and buffers. -/

namespace Sightline

variable {R : Type}

theorem Known.length_buffers_empty : ({} : Known R).buffers.length = 0 := rfl

/-- Taking up a direction for which nothing was at hand adds the list, if it is one to give back. -/
theorem Known.length_buffers_set {known : Known R} {d : Direction} (h : known.get? d = none)
    (planes : Planes R) :
    (known.set d planes).buffers.length = known.buffers.length + planes.buffer?.toList.length := by
  obtain ⟨forward, backward⟩ := known
  cases d with
  | forward =>
    obtain rfl : forward = none := h
    rcases backward with _ | _ | _ <;> cases planes <;> rfl
  | backward =>
    obtain rfl : backward = none := h
    rcases forward with _ | _ | _ <;> cases planes <;> rfl

/-- A desk, and a record of what is done at it. -/
structure Sheet (R : Type) where
  desk : Desk R
  /-- The lists in use that are not with the planes on the desk: those of other frames, and one that is in hand. -/
  away : Nat
  ticks : List Tick := []
  /-- The lists in use each time after one was taken or given back. -/
  uses : List Nat := []

namespace Sheet

variable {σ σ' σ'' : Sheet R} {d : Direction} {ticks ticks' : List Tick} {uses uses' : List Nat}

def inUse (σ : Sheet R) : Nat := σ.away + σ.desk.known.buffers.length

def lists (σ : Sheet R) : Nat := σ.desk.pool.planes.length + σ.inUse

def note (σ : Sheet R) : Sheet R := { σ with uses := σ.uses ++ [σ.inUse] }

def count (σ : Sheet R) (ticks : List Tick) : Sheet R :=
  { σ with desk := { σ.desk with tally := σ.desk.tally + .ofTicks ticks }, ticks := σ.ticks ++ ticks }

def take (σ : Sheet R) : Sheet R :=
  { σ with desk := { σ.desk with pool := σ.desk.pool.borrowPlanes.2 }, away := σ.away + 1 }.note

def give (σ : Sheet R) (planes : List (Plane R)) : Sheet R :=
  { σ with desk := { σ.desk with pool := σ.desk.pool.returnPlanes planes }, away := σ.away - 1 }.note

def learn (σ : Sheet R) (d : Direction) (planes : List (Plane R)) : Sheet R :=
  { σ with desk := { σ.desk with known := σ.desk.known.set d (.shared planes) } }

def keep (σ : Sheet R) (d : Direction) (planes : List (Plane R)) : Sheet R :=
  { σ with desk := { σ.desk with known := σ.desk.known.set d (.built planes) }, away := σ.away - 1 }

theorem inUse_take (σ : Sheet R) : σ.take.inUse = σ.inUse + 1 := Nat.add_right_comm ..

theorem lists_take (σ : Sheet R) : σ.take.lists = max σ.lists (σ.inUse + 1) := by
  rw [lists, inUse_take, lists]
  have hpool : σ.take.desk.pool.planes.length = σ.desk.pool.planes.length - 1 := List.length_tail
  omega

theorem inUse_give (h : 0 < σ.away) (planes : List (Plane R)) : (σ.give planes).inUse + 1 = σ.inUse := by
  have hin : (σ.give planes).inUse = σ.away - 1 + σ.desk.known.buffers.length := rfl
  rw [hin, inUse]
  omega

theorem lists_give (h : 0 < σ.away) (planes : List (Plane R)) : (σ.give planes).lists = σ.lists := by
  have hpool : (σ.give planes).desk.pool.planes.length = σ.desk.pool.planes.length + 1 := rfl
  have hin := inUse_give h planes
  rw [lists, lists, hpool]
  omega

theorem lists_learn (h : σ.desk.known.get? d = none) (planes : List (Plane R)) :
    (σ.learn d planes).lists = σ.lists := by
  have hknown := Known.length_buffers_set h (.shared planes)
  exact congrArg (fun n => σ.desk.pool.planes.length + (σ.away + n)) hknown

theorem inUse_keep (hd : σ.desk.known.get? d = none) (h : 0 < σ.away) (planes : List (Plane R)) :
    (σ.keep d planes).inUse = σ.inUse := by
  have hknown := Known.length_buffers_set hd (.built planes)
  have hin : (σ.keep d planes).inUse = σ.away - 1 + (σ.desk.known.buffers.length + 1) :=
    congrArg (σ.away - 1 + ·) hknown
  rw [hin, inUse]
  omega

end Sheet

/-- A sheet goes on from another. What was counted since are the ticks, and as many lists were made as were missing
when the most were in use. -/
structure Sheet.Leads (σ σ' : Sheet R) (ticks : List Tick) (uses : List Nat) : Prop where
  ticks_eq : σ'.ticks = σ.ticks ++ ticks
  tally : σ'.desk.tally = σ.desk.tally + .ofTicks ticks
  uses_eq : σ'.uses = σ.uses ++ uses
  away : σ'.away = σ.away
  lists : σ'.lists = uses.foldl max σ.lists
  sets : σ'.desk.pool.sets = σ.desk.pool.sets

theorem Sheet.Leads.refl (σ : Sheet R) : σ.Leads σ [] [] :=
  ⟨(List.append_nil _).symm, (Counters.add_zero _).symm, (List.append_nil _).symm, rfl, rfl, rfl⟩

theorem Sheet.Leads.trans {σ σ' σ'' : Sheet R} {ticks ticks' : List Tick} {uses uses' : List Nat}
    (h : σ.Leads σ' ticks uses) (h' : σ'.Leads σ'' ticks' uses') :
    σ.Leads σ'' (ticks ++ ticks') (uses ++ uses') := by
  refine ⟨?_, ?_, ?_, h'.away.trans h.away, ?_, h'.sets.trans h.sets⟩
  · rw [h'.ticks_eq, h.ticks_eq, List.append_assoc]
  · rw [h'.tally, h.tally, Counters.ofTicks_append, Counters.add_assoc]
  · rw [h'.uses_eq, h.uses_eq, List.append_assoc]
  · rw [h'.lists, h.lists, List.foldl_append]

namespace Sheet.Leads

variable {σ : Sheet R} {d : Direction}

theorem count (σ : Sheet R) (ticks : List Tick) : σ.Leads (σ.count ticks) ticks [] :=
  ⟨rfl, rfl, (List.append_nil _).symm, rfl, rfl, rfl⟩

theorem learn (h : σ.desk.known.get? d = none) (planes : List (Plane R)) :
    σ.Leads (σ.learn d planes) [] [] :=
  ⟨(List.append_nil _).symm, (Counters.add_zero _).symm, (List.append_nil _).symm, rfl, lists_learn h planes,
    rfl⟩

theorem takeAndKeep (h : σ.desk.known.get? d = none) (planes : List (Plane R)) :
    σ.Leads (σ.take.keep d planes) [] [σ.inUse + 1] := by
  have hnone : σ.take.desk.known.get? d = none := h
  have hkeep : (σ.take.keep d planes).inUse = σ.take.inUse := inUse_keep hnone (Nat.succ_pos _) planes
  have hlists : (σ.take.keep d planes).lists = σ.take.lists :=
    congrArg (σ.take.desk.pool.planes.length + ·) hkeep
  refine ⟨(List.append_nil _).symm, (Counters.add_zero _).symm, ?_, rfl, ?_, rfl⟩
  · exact congrArg (σ.uses ++ [·]) σ.inUse_take
  · rw [hlists, lists_take]
    rfl

end Sheet.Leads

abbrev Recorded (R : Type) := OptionT (StateM (Sheet R))

namespace Recorded

def count (ticks : List Tick) : Recorded R Unit := modify (·.count ticks)

def ofOption {α : Type} (a : Option α) : Recorded R α := OptionT.mk (pure a)

def borrowPlanes : Recorded R (List (Plane R)) := modifyGet fun σ => (σ.desk.pool.borrowPlanes.1, σ.take)

def returnPlanes (planes : List (Plane R)) : Recorded R Unit := modify (·.give planes)

def learn (d : Direction) (planes : List (Plane R)) : Recorded R Unit := modify (·.learn d planes)

def keep (d : Direction) (planes : List (Plane R)) : Recorded R Unit := modify (·.keep d planes)

variable {α β : Type} {law : Bool → List Tick → Prop}

/-- The recorded attempt leaves what the attempt leaves, and on the same desk. The record accounts for what was
counted and for the lists in use, and the ticks obey a law, depending on whether anything is left. -/
def Follows (law : Bool → List Tick → Prop) (m : Recorded R α) (a : Attempt R α) : Prop :=
  ∀ σ, (m.run σ).1 = (a.run σ.desk).1 ∧ (m.run σ).2.desk = (a.run σ.desk).2 ∧
    ∃ ticks uses, σ.Leads (m.run σ).2 ticks uses ∧ law (a.run σ.desk).1.isSome ticks

structure Absorbs (law : Bool → List Tick → Prop) : Prop where
  ended : ∀ {l}, Cuts false l → law false l
  append : ∀ {left l l'}, Cuts true l → law left l' → law left (l ++ l')

theorem Absorbs.cuts : Absorbs Cuts := ⟨fun h => h, fun h h' => h.append h'⟩

theorem Follows.bind {m : Recorded R α} {a : Attempt R α} {f : α → Recorded R β} {g : α → Attempt R β}
    (hlaw : Absorbs law) (hm : Follows Cuts m a) (hf : ∀ x, Follows law (f x) (g x)) :
    Follows law (m >>= f) (a >>= g) := by
  intro σ
  obtain ⟨hleft, hdesk, ticks, uses, hleads, hcuts⟩ := hm σ
  rw [Attempt.run_bind, Attempt.run_bind]
  rcases hr : m.run σ with ⟨x, σ'⟩
  rcases hr' : a.run σ.desk with ⟨x', d⟩
  rw [hr, hr'] at hleft hdesk
  rw [hr] at hleads
  rw [hr'] at hcuts
  cases hleft
  cases hdesk
  cases x with
  | none => exact ⟨rfl, rfl, ticks, uses, hleads, hlaw.ended hcuts⟩
  | some x =>
    obtain ⟨hleft, hdesk, ticks', uses', hleads', hlaw'⟩ := hf x σ'
    exact ⟨hleft, hdesk, _, _, hleads.trans hleads', hlaw.append hcuts hlaw'⟩

theorem Follows.pure (h : law true []) (x : α) : Follows law (pure x : Recorded R α) (pure x) :=
  fun σ => ⟨rfl, rfl, [], [], .refl σ, h⟩

theorem Follows.ofOption (a : Option α) : Follows Cuts (ofOption a : Recorded R α) (Attempt.ofOption a) :=
  fun σ => ⟨rfl, rfl, [], [], .refl σ, .nil _⟩

theorem Follows.foldlM {γ : Type} {f : α → γ → Recorded R α} {g : α → γ → Attempt R α}
    (hf : ∀ a c, Follows Cuts (f a c) (g a c)) (l : List γ) (a : α) :
    Follows Cuts (l.foldlM f a) (l.foldlM g a) := by
  induction l generalizing a with
  | nil => exact .pure (.nil _) a
  | cons c l ih =>
    rw [List.foldlM_cons, List.foldlM_cons]
    exact .bind .cuts (hf a c) ih

end Recorded

variable [Scalar R]

namespace Recorded

def planesFor (s : Setting R) (source : Winding R) (exit : PortalId) (pass : Winding R)
    (d : Direction) : Recorded R (List (Plane R)) := do
  match (← get).desk.known.get? d with
  | some planes => pure planes.list
  | none =>
    match s.passage? source exit pass with
    | some passage =>
      learn d (passage.planes d)
      pure (passage.planes d)
    | none =>
      let planes := (← borrowPlanes) ++ d.separators source.points pass.points
      keep d planes
      pure planes

def clip (role : Role) (sphere : Sphere R) (planes : List (Plane R)) (w : Winding R) :
    Recorded R (Winding R) := do
  count (cutTicks role sphere planes w)
  ofOption (cutByAll role sphere planes w).1

def narrowSource (s : Setting R) (pass target : Winding R) (source : Winding R) (d : Direction) :
    Recorded R (Winding R) := do
  let planes := (← borrowPlanes) ++ d.separators target.points pass.points
  count (cutTicks .source s.portal.sphere planes source)
  returnPlanes planes
  ofOption (cutByAll .source s.portal.sphere planes source).1

def narrow (s : Setting R) (frame : Frame R) (ahead : Portal R) :
    Recorded R (Winding R × Winding R) := do
  let target ← ofOption (ahead.whole.front? s.portal.plane false)
  match frame.pass with
  | none => pure (frame.source, target)
  | some (exit, pass) =>
    let target ← ofOption (target.front? frame.passPlane false)
    let source ← ofOption (frame.source.front? ahead.plane.flipped false)
    let target ← (Direction.all.take s.level).foldlM (fun target d => do
      clip .target ahead.sphere (← planesFor s frame.source exit pass d) target) target
    let source ← (Direction.all.take (s.level - 2)).foldlM (narrowSource s pass target) source
    count [.pass]
    pure (source, target)

theorem Follows.clip (role : Role) (sphere : Sphere R) (planes : List (Plane R)) (w : Winding R) :
    Follows Cuts (clip role sphere planes w) (Attempt.clip role sphere planes w) := by
  intro σ
  have htally := ofTicks_cutTicks role sphere planes w
  refine ⟨rfl, ?_, cutTicks role sphere planes w, [], .count σ _, cuts_cutTicks role sphere planes w⟩
  exact congrArg (fun c => ({ σ.desk with tally := σ.desk.tally + c } : Desk R)) htally

/-- A list is taken and given back, whatever the cut comes to. -/
theorem Follows.narrowSource (s : Setting R) (pass target source : Winding R) (d : Direction) :
    Follows Cuts (narrowSource s pass target source d) (Attempt.narrowSource s pass target source d) := by
  intro σ
  let planes := d.separators target.points pass.points
  let ticks := cutTicks .source s.portal.sphere planes source
  have htally : Counters.ofTicks ticks = (cutByAll .source s.portal.sphere planes source).2 :=
    ofTicks_cutTicks _ _ _ _
  have hheld : 0 < (σ.take.count ticks).away := Nat.succ_pos _
  refine ⟨rfl, ?_, ticks, [σ.inUse + 1, σ.inUse], ⟨rfl, rfl, ?_, rfl, ?_, rfl⟩, cuts_cutTicks _ _ _ _⟩
  · exact congrArg (fun c => (⟨σ.desk.known, σ.desk.tally + c,
      σ.desk.pool.borrowPlanes.2.returnPlanes planes⟩ : Desk R)) htally
  · have hback : ((σ.take.count ticks).give planes).inUse + 1 = σ.inUse + 1 :=
      (Sheet.inUse_give hheld planes).trans σ.inUse_take
    calc ((σ.take.count ticks).give planes).uses
      _ = σ.uses ++ [σ.take.inUse] ++ [((σ.take.count ticks).give planes).inUse] := rfl
      _ = σ.uses ++ [σ.inUse + 1, σ.inUse] := by
        rw [σ.inUse_take, Nat.succ_inj.mp hback, List.append_assoc, List.singleton_append]
  · calc ((σ.take.count ticks).give planes).lists
      _ = σ.take.lists := Sheet.lists_give hheld planes
      _ = [σ.inUse + 1, σ.inUse].foldl max σ.lists := by
        rw [Sheet.lists_take]
        simp only [List.foldl_cons, List.foldl_nil]
        omega

/-- A list is taken just if it is put on the desk. -/
theorem Follows.planesFor (s : Setting R) (source : Winding R) (exit : PortalId) (pass : Winding R)
    (d : Direction) : Follows Cuts (planesFor s source exit pass d) (Attempt.planesFor s source exit pass d) := by
  intro σ
  have hget : (get : Recorded R (Sheet R)).run σ = (some σ, σ) := rfl
  have hget' : (get : Attempt R (Desk R)).run σ.desk = (some σ.desk, σ.desk) := rfl
  rw [Recorded.planesFor, Attempt.planesFor, Attempt.run_bind, Attempt.run_bind, hget, hget']
  dsimp only
  cases hknown : σ.desk.known.get? d with
  | some planes => exact ⟨rfl, rfl, [], [], .refl σ, .nil _⟩
  | none =>
    dsimp only
    cases s.passage? source exit pass with
    | some passage => exact ⟨rfl, rfl, [], [], .learn hknown _, .nil _⟩
    | none => exact ⟨rfl, rfl, [], [σ.inUse + 1], .takeAndKeep hknown _, .nil _⟩

end Recorded

/-- Ticks of narrowing: those of cuts, and if something is left of the chain a last one that says so. -/
def Narrows (left : Bool) (l : List Tick) : Prop :=
  Cuts left l ∨ left = true ∧ ∃ cuts, Cuts true cuts ∧ l = cuts ++ [.pass]

theorem Recorded.Absorbs.narrows : Absorbs Narrows := by
  refine ⟨Or.inl, ?_⟩
  rintro left l l' h (h' | ⟨rfl, cuts, h', rfl⟩)
  · exact .inl (h.append h')
  · exact .inr ⟨rfl, l ++ cuts, h.append h', (List.append_assoc _ _ _).symm⟩

theorem narrow_follows (s : Setting R) (frame : Frame R) (ahead : Portal R) :
    Recorded.Follows Narrows (Recorded.narrow s frame ahead) (narrow s frame ahead) := by
  unfold Recorded.narrow narrow
  refine .bind .narrows (.ofOption _) fun target => ?_
  cases frame.pass with
  | none => exact .pure (Or.inl (.nil _)) _
  | some p =>
    obtain ⟨exit, pass⟩ := p
    refine .bind .narrows (.ofOption _) fun target => .bind .narrows (.ofOption _) fun source => ?_
    refine .bind .narrows (.foldlM (fun target d => ?_) _ _) fun target => ?_
    · exact .bind .cuts (.planesFor s frame.source exit pass d) fun _ => .clip _ _ _ _
    · refine .bind .narrows (.foldlM (fun source d => ?_) _ _) fun source => ?_
      · exact .narrowSource s pass target source d
      · exact fun σ => ⟨rfl, rfl, [.pass], [], .count σ _, .inr ⟨rfl, [], .nil _, rfl⟩⟩

/-- The record of a move: what was counted, and the lists in use each time after one was taken or given back. -/
structure Record where
  ticks : List Tick := []
  uses : List Nat := []

/-- What is counted at a move. Once the geometry of a candidate is looked at, the chain gets longer if something
is left. -/
inductive Outcome : List Tick → Prop
  | silent : Outcome []
  | nothingNew (e : Evidence) : Outcome [e.tick, .nothingNew]
  | opposed (e : Evidence) : Outcome [e.tick]
  | tried (e : Evidence) {left : Bool} {l : List Tick} :
      Narrows left l → Outcome ([e.tick, .check] ++ l ++ if left then [.chain] else [])

namespace Search

variable {s : Setting R} {x y : Search R} {top : Frame R} {rest : List (Frame R)}

def listsOf (stack : List (Frame R)) : Nat := (stack.map (·.known.buffers.length)).sum

def tried (s : Setting R) (x : Search R) (top : Frame R) (rest : List (Frame R)) (ahead : Portal R)
    (evidence : Evidence) : Option (Winding R × Winding R) × Sheet R :=
  (Recorded.narrow s top ahead).run
    { desk := ⟨top.known, x.tally + evidence.counted + { checks := 1 }, x.pool⟩
      away := listsOf rest
      ticks := [evidence.tick, .check] }

/-- The record of the move from `x`, and an empty one at the end of the search. -/
def record (s : Setting R) (x : Search R) : Record :=
  match x.stack with
  | [] => {}
  | top :: rest =>
    match top.todo with
    | [] => {}
    | id :: todo =>
      match s.graph.portals[id]? with
      | none => {}
      | some ahead =>
        if ahead.target ∉ top.mask ∨ ahead.target ∈ x.onChain then {}
        else match s.progress.evidence? id with
          | none => {}
          | some evidence =>
            if top.mask ∩ evidence.set ⊆ x.visible then { ticks := [evidence.tick, .nothingNew] }
            else if ahead.plane.opposes top.passPlane then { ticks := [evidence.tick] }
            else
              let (left, sheet) := tried s x { top with todo } rest ahead evidence
              ⟨sheet.ticks ++ if left.isSome then [.chain] else [], sheet.uses⟩

structure Accounts (x y : Search R) (r : Record) : Prop where
  outcome : Outcome r.ticks
  tally : y.tally = x.tally + .ofTicks r.ticks
  /-- A list is made only if more are in use than there are. -/
  lists : y.pool.planes.length + listsOf y.stack = r.uses.foldl max (x.pool.planes.length + listsOf x.stack)
  /-- And so is a set, of which every frame has one. -/
  sets : y.pool.sets.length + y.stack.length = max (x.pool.sets.length + x.stack.length) y.stack.length

omit [Scalar R] in
theorem Accounts.of_same (h : x.stack = top :: rest) {todo : List PortalId} {ticks : List Tick}
    (hticks : Outcome ticks) {tally : Counters} (htally : tally = x.tally + .ofTicks ticks) :
    Accounts x { x with stack := { top with todo } :: rest, tally } { ticks } := by
  refine ⟨hticks, htally, ?_, ?_⟩
  · rw [h]
    rfl
  · rw [h]
    exact (max_eq_left (Nat.le_add_left _ _)).symm

omit [Scalar R] in
theorem listsOf_cons (f : Frame R) (stack : List (Frame R)) :
    listsOf (f :: stack) = f.known.buffers.length + listsOf stack := rfl

omit [Scalar R] in
theorem length_foldl_returnPlanes (lists : List (List (Plane R))) (pool : Pool R) :
    (lists.foldl Pool.returnPlanes pool).planes.length = pool.planes.length + lists.length ∧
      (lists.foldl Pool.returnPlanes pool).sets = pool.sets := by
  induction lists generalizing pool with
  | nil => exact ⟨rfl, rfl⟩
  | cons list lists ih =>
    obtain ⟨hplanes, hsets⟩ := ih (pool.returnPlanes list)
    refine ⟨?_, hsets⟩
    rw [List.foldl_cons, hplanes, List.length_cons, Pool.returnPlanes, List.length_cons]
    omega

omit [Scalar R] in
theorem accounts_retreat (hx : x.stack = top :: rest) : Accounts x (x.retreat top rest) {} := by
  obtain ⟨hplanes, hsets⟩ := length_foldl_returnPlanes top.known.buffers (x.pool.returnSet top.mask)
  refine ⟨.silent, (Counters.add_zero _).symm, ?_, ?_⟩
  · rw [hx, listsOf_cons, retreat, hplanes]
    exact Nat.add_assoc _ _ _
  · rw [hx, retreat, hsets]
    simp only [Pool.returnSet, List.length_cons]
    omega

omit [Scalar R] in
theorem length_borrowSet (pool : Pool R) (size : Nat) :
    (pool.borrowSet size).2.sets.length = pool.sets.length - 1 ∧
      (pool.borrowSet size).2.planes = pool.planes := by
  unfold Pool.borrowSet
  split
  · next h => simp [h]
  · next h => simp [h]

/-- What is left of a candidate, on which desk, and how the record accounts for it. -/
theorem tried_spec (s : Setting R) (hx : x.stack = top :: rest) (todo : List PortalId) (ahead : Portal R)
    (evidence : Evidence) : ∃ left sheet ticks, tried s x { top with todo } rest ahead evidence = (left, sheet) ∧
      (narrow s { top with todo } ahead).run ⟨top.known, x.tally + evidence.counted + { checks := 1 }, x.pool⟩ =
        (left, sheet.desk) ∧
      sheet.ticks = [evidence.tick, .check] ++ ticks ∧ Narrows left.isSome ticks ∧
      sheet.desk.tally = x.tally + .ofTicks sheet.ticks ∧
      sheet.desk.pool.planes.length + (sheet.desk.known.buffers.length + listsOf rest) =
        sheet.uses.foldl max (x.pool.planes.length + listsOf x.stack) ∧
      sheet.desk.pool.sets = x.pool.sets := by
  have hfollows := narrow_follows s { top with todo } ahead
    { desk := ⟨top.known, x.tally + evidence.counted + { checks := 1 }, x.pool⟩
      away := listsOf rest
      ticks := [evidence.tick, .check] }
  rcases htried : tried s x { top with todo } rest ahead evidence with ⟨left, sheet⟩
  rw [tried] at htried
  rw [htried] at hfollows
  obtain ⟨hleft, hdesk, ticks, uses, ⟨hticks, htally, huses, haway, hlists, hsets⟩, hlaw⟩ := hfollows
  dsimp only at hleft hdesk hticks htally huses haway hsets
  rw [← hleft] at hlaw
  refine ⟨left, sheet, ticks, rfl, Prod.ext hleft.symm hdesk.symm, hticks, hlaw, ?_, ?_, hsets⟩
  · rw [hticks, htally, Counters.ofTicks_append, Counters.ofTicks_pair, evidence.counters_tick, Counters.add_assoc,
      Counters.add_assoc, Counters.add_assoc]
    rfl
  · rw [Sheet.lists, Sheet.inUse, haway] at hlists
    rw [huses, List.nil_append, hx, listsOf_cons, Nat.add_comm _ (listsOf rest),
      Nat.add_comm top.known.buffers.length]
    exact hlists

theorem accounts_extend (hx : x.stack = top :: rest) (todo : List PortalId) (id : PortalId) (ahead : Portal R)
    (evidence : Evidence) :
    Accounts x
      (extend s { x with stack := { top with todo } :: rest, tally := x.tally + evidence.counted }
        { top with todo } rest id ahead evidence.set)
      ⟨(tried s x { top with todo } rest ahead evidence).2.ticks ++
          if (tried s x { top with todo } rest ahead evidence).1.isSome then [.chain] else [],
        (tried s x { top with todo } rest ahead evidence).2.uses⟩ := by
  obtain ⟨left, sheet, ticks, htried, hrun, hticks, hlaw, htally, hlists, hsets⟩ :=
    tried_spec s hx todo ahead evidence
  unfold extend
  dsimp only
  rw [htried, hrun]
  have houtcome := Outcome.tried evidence hlaw
  rw [← hticks] at houtcome
  cases left with
  | none =>
    refine ⟨houtcome, ?_, hlists, ?_⟩
    · rw [Option.isSome_none, if_neg Bool.false_ne_true, List.append_nil]
      exact htally
    · rw [hsets, hx]
      exact (max_eq_left (Nat.le_add_left _ _)).symm
  | some left =>
    obtain ⟨hborrow, hplanes⟩ := length_borrowSet sheet.desk.pool s.graph.clusters.size
    refine ⟨houtcome, ?_, ?_, ?_⟩
    · rw [Option.isSome_some, if_pos rfl, Counters.ofTicks_append _ [.chain], ← Counters.add_assoc, ← htally]
      exact congrArg (sheet.desk.tally + ·) (Counters.add_zero _).symm
    · dsimp only [descend]
      rw [hplanes, listsOf_cons, Known.length_buffers_empty, Nat.zero_add]
      exact hlists
    · dsimp only [descend]
      rw [hborrow, hsets, hx]
      simp only [List.length_cons]
      omega

theorem accounts_move (hx : x.stack = top :: rest) (hy : move s x top rest = .ok y) :
    Accounts x y (record s x) := by
  unfold Search.move at hy
  split at hy
  · next ht =>
    cases hy
    have hrecord : record s x = {} := by simp only [record, hx, ht]
    rw [hrecord]
    exact accounts_retreat hx
  · next id todo ht =>
    unfold attempt at hy
    dsimp only at hy
    split at hy
    · cases hy
    · next ahead hp =>
      split at hy
      · next hbarred =>
        cases hy
        have hrecord : record s x = {} := by simp only [record, hx, ht, hp, if_pos hbarred]
        rw [hrecord]
        exact .of_same hx .silent (Counters.add_zero _).symm
      · next hopen =>
        split at hy
        · cases hy
        · next evidence he =>
          have hcounted : x.tally + evidence.counted = x.tally + .ofTicks [evidence.tick] := by
            rw [Counters.ofTicks_singleton, evidence.counters_tick]
          split at hy
          · next hnothing =>
            cases hy
            have hrecord : record s x = { ticks := [evidence.tick, .nothingNew] } := by
              simp only [record, hx, ht, hp, he, if_neg hopen, if_pos hnothing]
            rw [hrecord]
            refine .of_same hx (.nothingNew evidence) ?_
            rw [Counters.ofTicks_pair, evidence.counters_tick, Counters.add_assoc]
            rfl
          · next hnew =>
            split at hy
            · next hopposes =>
              cases hy
              have hrecord : record s x = { ticks := [evidence.tick] } := by
                simp only [record, hx, ht, hp, he, if_neg hopen, if_neg hnew, if_pos hopposes]
              rw [hrecord]
              exact .of_same hx (.opposed evidence) hcounted
            · next hahead =>
              cases hy
              simp only [record, hx, ht, hp, he, if_neg hopen, if_neg hnew, if_neg hahead]
              exact accounts_extend hx todo id ahead evidence

end Search

end Sightline
