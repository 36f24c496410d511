import LoopNest.Proofs.Arguments
import LoopNest.Proofs.Lift

/-!
# Lifting out of loops that add no dimension

The rounds of such a loop share a slot, so an element that a round reads before it is written is what
the round before has left there, and no longer undefined (`beforeAndAfter_unwritten_changed`). The
arithmetic of `Determined` keeps track of what is computed from elements that were never written, and
all other elements of the parameters stay as they are (`Proc.run_liftAlloc_determined`).
-/

namespace LoopNest

open Exec

/-! ## Elements that are determined -/

/-- An element, or nothing if it is computed from one that was never written. -/
def Determined (α : Type) : Type := Option α

namespace Determined

variable {α : Type}

def known (x : α) : Determined α := some x

def unknown : Determined α := none

/-- Nothing is known of what is computed from an unknown element. -/
def lift₂ (f : α → α → α) : Determined α → Determined α → Determined α
  | some x, some y => some (f x y)
  | _, _ => none

instance [Element α] : Element (Determined α) where
  ofWord n := known (Element.ofWord n)
  ofFloat x := known (Element.ofFloat x)
  add := lift₂ Element.add
  sub := lift₂ Element.sub
  mul := lift₂ Element.mul
  div := lift₂ Element.div
  mod := lift₂ Element.mod
  neg := Option.map Element.neg
  round ty := Option.map (Element.round ty)
  undefined := unknown

/-- An element that is known is this one. -/
def Allows (x : Determined α) (y : α) : Prop := ∀ v, x = known v → y = v

theorem allows_known (x : α) : (known x).Allows x := fun _ h => Option.some.inj h

theorem unknown_allows (y : α) : unknown.Allows y := nofun

theorem Allows.lift₂ (f : α → α → α) {x x' : Determined α} {y y' : α} (h : x.Allows y)
    (h' : x'.Allows y') : (lift₂ f x x').Allows (f y y') := by
  cases x with
  | none => exact nofun
  | some v =>
    cases x' with
    | none => exact nofun
    | some v' =>
      rw [h v rfl, h' v' rfl]
      exact allows_known (f v v')

theorem Allows.map (f : α → α) {x : Determined α} {y : α} (h : x.Allows y) :
    Determined.Allows (Option.map f x) (f y) := by
  cases x with
  | none => exact nofun
  | some v =>
    rw [h v rfl]
    exact allows_known (f v)

/-- **What is known is computed from known elements.** -/
theorem related_allows (α : Type) [Element α] :
    Element.Related (Allows : Determined α → α → Prop) where
  ofWord _ := allows_known _
  ofFloat _ := allows_known _
  add := .lift₂ Element.add
  sub := .lift₂ Element.sub
  mul := .lift₂ Element.mul
  div := .lift₂ Element.div
  mod := .lift₂ Element.mod
  neg := .map Element.neg
  round ty _ _ := .map (Element.round ty)
  undefined := unknown_allows _

/-- Only one element is allowed where the element is known. -/
theorem eq_of_rel {x : Option (Determined α)} {y y' : Option α} (h : Option.Rel Allows x y)
    (h' : Option.Rel Allows x y') (hx : x ≠ some unknown) : y' = y := by
  cases h with
  | none =>
    cases h'
    rfl
  | @some x y hy =>
    cases h' with
    | some hy' =>
      cases x with
      | none => exact absurd rfl hx
      | some v => rw [hy v rfl, hy' v rfl]

end Determined

variable {α : Type}

/-- The tensor, all elements of which are known. -/
def Tensor.determined (t : Tensor α) : Tensor (Determined α) :=
  ⟨t.ty, t.shape, t.data.map Determined.known⟩

/-- The arguments, all elements of which are known. -/
def Args.determined (args : Args α) : Args (Determined α) := args.mapTensors (·.determined)

theorem Tensor.rel_determined (t : Tensor α) (o : Nat) :
    Option.Rel Determined.Allows t.determined.data[o]? t.data[o]? := by
  show Option.Rel _ (t.data.map Determined.known)[o]? _
  rw [Array.getElem?_map]
  cases t.data[o]? with
  | none => exact .none
  | some x => exact .some (Determined.allows_known x)

theorem Store.layout_determined (st : Store α) :
    Store.layout (st.map (·.determined)) = st.layout := by
  simp [Store.layout, Tensor.slot, Tensor.determined, Function.comp_def]

theorem Store.seated_determined (st : Store α) (n : Nat) :
    Seated Determined.Allows .whole n (st.map (·.determined)) st := by
  intro i o x q _ hq hx
  rw [Seat.lies_whole] at hq
  subst hq
  simp only [Store.at?, List.getElem?_map] at hx
  cases hi : st[i]? with
  | none =>
    rw [hi] at hx
    cases hx
  | some t =>
    rw [hi] at hx
    have hrel := t.rel_determined o
    replace hx : t.determined.data[o]? = some x := hx
    rw [hx] at hrel
    cases ht : t.data[o]? with
    | none =>
      rw [ht] at hrel
      cases hrel
    | some y =>
      rw [ht] at hrel
      cases hrel with
      | some hxy => exact ⟨y, by simp [Store.at?, hi, ht], hxy⟩

/-! ## Kernels -/

section kernels

variable [Element α]

/-- What a run leaves known is left by every kernel whose body is paired with its body. -/
theorem Proc.rel_of_paired {p : Proc} {c : Catalog} {args : Args α} {b : Block}
    {frame : Args.Frame α} {acts acts' : List Action} {e e' : Env}
    (hframe : args.bindParams p.params = .ok frame)
    (hacts : c.traceAll frame.env frame.store.layout p.body = some (acts, e))
    (hacts' : c.traceAll frame.env frame.store.layout b = some (acts', e'))
    (hpaired : Paired (Determined.Allows : Determined α → α → Prop) frame.store.layout acts acts')
    (x : String) (o : Nat) :
    Option.Rel Determined.Allows ((p.run c args.determined).2.at? x o)
      (({ p with body := b }.run c args).2.at? x o) := by
  have hslot : ∀ t : Tensor α, t.determined.shape = t.shape ∧ t.determined.ty = t.ty :=
    fun _ => ⟨rfl, rfl⟩
  -- traces depend on the layout only, so the run that keeps track has the same one
  have hframe' : args.determined.bindParams p.params = .ok (frame.mapTensors (·.determined)) :=
    Args.bindParams_mapTensors hslot hframe
  have hlay : Store.layout (frame.mapTensors (·.determined)).store = frame.store.layout :=
    frame.store.layout_determined
  have hold := run_of_traceAll (c := c) hframe' (by rw [hlay]; exact hacts)
  have hnew := run_of_traceAll (p := { p with body := b }) hframe hacts'
  rw [hold, hnew, hlay]
  have hst : Store.layout (perform (LoopNest.scope frame.store.layout acts)
      (frame.mapTensors (·.determined)).store) = frame.store.layout := by
    rw [layout_perform, hlay, (Stmt.scope_traceAll_closes c.calls_closed hacts).after]
  have hst' : Store.layout (perform (LoopNest.scope frame.store.layout acts') frame.store) =
      frame.store.layout := by
    rw [layout_perform, (Stmt.scope_traceAll_closes c.calls_closed hacts').after]
  have hseated := hpaired.scope hlay rfl (frame.store.seated_determined _)
  exact Args.rel_giveBack Tensor.rel_determined (hst.trans hst'.symm) (hseated.rel hst hst') _ x o

/-- **Lifting changes only what is computed from elements that were never written.** -/
theorem Proc.run_liftAlloc_determined {p q : Proc} {c : Catalog} {args : Args α}
    {templates : Scope.Templates} {alloc : String} {lifts : Nat} {keepDims : Bool} {path : Path}
    {d : Decl} (hvalid : p.problems templates = [])
    (hlift : p.liftAlloc alloc lifts keepDims = .ok q)
    (hpick : p.pickAlloc alloc = .ok (path, d))
    (hroom : p.HasRoom c args (path.lift lifts)
      (d.widened (addedDims keepDims (p.lifted path lifts))))
    (hrun : (p.run c args).1 = .ok ()) :
    (q.run c args).1 = .ok () ∧ ∀ x o, (p.run c args.determined).2.at? x o ≠ some .unknown →
      (q.run c args).2.at? x o = (p.run c args).2.at? x o := by
  obtain hq | ⟨⟨lift⟩⟩ := liftedAlloc_of_liftAlloc hlift
  · rw [(finish_eq_ok.1 hq).1]
    exact ⟨hrun, fun _ _ _ => rfl⟩
  obtain ⟨rfl, rfl⟩ := Prod.mk.inj (Except.ok.inj (hpick.symm.trans lift.picked))
  rw [← lift.added] at hroom
  have hR := Determined.related_allows α
  obtain ⟨frame, acts, acts', e, e', hframe, hacts, hacts', hpaired⟩ :=
    paired_liftAlloc hR hvalid lift (.inl Determined.unknown_allows) hroom hrun
  have hself : Paired (Determined.Allows : Determined α → α → Prop) _ acts acts :=
    .of_reseats hR (Stmt.traceAll_reseats c.calls_closed c.calls_seated hacts)
      (Stmt.traceAll_grows c.calls_closed _ hacts)
  rw [(finish_eq_ok.1 lift.finished).1]
  refine ⟨by rw [run_of_traceAll (p := { p with body := lift.b }) hframe hacts'], fun x o hx => ?_⟩
  -- both kernels leave what is known
  exact Determined.eq_of_rel (rel_of_paired hframe hacts hacts hself x o)
    (rel_of_paired hframe hacts hacts' hpaired x o) hx

end kernels

/-- Passes on what a temporary holds before it is written, and what is written to it. -/
def beforeAndAfter : Proc where
  name := "before_and_after"
  params := [.buffer ⟨"x", .f32, [.int 2], .dram⟩, .buffer ⟨"y", .f32, [.int 2], .dram⟩]
  body := [.loop ⟨"i", .int 2, .seq⟩ [
    .alloc ⟨"t", .f32, [], .dram⟩,
    .store .set "y" [.var "i"] (.read "t" []),
    .store .set "t" [] (.float 1),
    .store .set "x" [.var "i"] (.read "t" [])]]

/-- The kernel with one temporary for all rounds. -/
def beforeAndAfterShared : Proc where
  name := "before_and_after"
  params := beforeAndAfter.params
  body := [.alloc ⟨"t", .f32, [], .dram⟩, .loop ⟨"i", .int 2, .seq⟩ [
    .store .set "y" [.var "i"] (.read "t" []),
    .store .set "t" [] (.float 1),
    .store .set "x" [.var "i"] (.read "t" [])]]

def beforeAndAfterArgs : Args Float :=
  ⟨[], [("x", ⟨.f32, [2], #[0, 0]⟩), ("y", ⟨.f32, [2], #[0, 0]⟩)]⟩

theorem beforeAndAfter_hasRoom :
    beforeAndAfter.HasRoom {} beforeAndAfterArgs [0] ⟨"t", .f32, [], .dram⟩ := by
  intro env st hreach
  rw [hreach.env_of_first rfl]
  exact ⟨[], rfl, rfl⟩

/-- What is written to the temporary is known, so it is passed on as before. -/
theorem beforeAndAfter_written_kept :
    beforeAndAfter.liftAlloc "t" 1 false = .ok beforeAndAfterShared ∧
      (beforeAndAfter.run {} beforeAndAfterArgs.determined).2.at? "x" 1 = some (.known 1) ∧
      (beforeAndAfterShared.run {} beforeAndAfterArgs).2.at? "x" 1 =
        (beforeAndAfter.run {} beforeAndAfterArgs).2.at? "x" 1 := by
  have hvalid : beforeAndAfter.problems (some (Catalog.find? {})) = [] := rfl
  have hlift : beforeAndAfter.liftAlloc "t" 1 false = .ok beforeAndAfterShared := by cbv
  have hpick : beforeAndAfter.pickAlloc "t" = .ok ([0, 0], ⟨"t", .f32, [], .dram⟩) := by cbv
  have hrun : (beforeAndAfter.run {} beforeAndAfterArgs).1 = .ok () := rfl
  have hknown : (beforeAndAfter.run {} beforeAndAfterArgs.determined).2.at? "x" 1 =
      some (.known 1) := by with_unfolding_all rfl
  refine ⟨hlift, hknown,
    (Proc.run_liftAlloc_determined hvalid hlift hpick beforeAndAfter_hasRoom hrun).2 "x" 1 ?_⟩
  rw [hknown]
  rintro ⟨⟩

/-- **The second round reads what the first one has left.** Nothing is written to the temporary
before it is read, and the two kernels differ. -/
theorem beforeAndAfter_unwritten_changed :
    beforeAndAfter.problems (some (Catalog.find? {})) = [] ∧
      beforeAndAfter.liftAlloc "t" 1 false = .ok beforeAndAfterShared ∧
      beforeAndAfter.HasRoom {} beforeAndAfterArgs [0] ⟨"t", .f32, [], .dram⟩ ∧
      (beforeAndAfter.run {} beforeAndAfterArgs).1 = .ok () ∧
      (beforeAndAfter.run {} beforeAndAfterArgs.determined).2.at? "y" 1 = some .unknown ∧
      ((beforeAndAfter.run {} beforeAndAfterArgs).2.at? "y" 1).map (·.isNaN) = some true ∧
      (beforeAndAfterShared.run {} beforeAndAfterArgs).2.at? "y" 1 = some 1 :=
  ⟨rfl, by cbv, beforeAndAfter_hasRoom, rfl, by with_unfolding_all rfl, rfl, rfl⟩

end LoopNest
