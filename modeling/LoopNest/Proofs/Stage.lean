import LoopNest.Proofs.Bind

/-!
# Staging a reduction

`Proc.stageReduction` reduces into a new scalar: the scalar takes the element, adds the value to it
and is stored back. Each of the three stores rounds to the type of the element, where the reduction
rounds once. If rounding twice is rounding once, then the last of these roundings changes nothing,
and the first one changes nothing if the type holds what is in the element. Under these two
conditions the step keeps results (`Proc.run_stageReduction`).

The value may be computed from the element that is reduced into. It still is there when the value
is computed, as only the scalar has been written by then.
-/

namespace LoopNest

open Exec Stmt Evaluator

variable {α : Type} [Element α]
variable {st : Store α} {x : α} {ty : Scalar} {env : Env} {b : String} {idx : List Expr}

/-! ## The statements of a staged reduction -/

/-- Two changes of an element that come to the same after rounding. -/
theorem Store.modifyAt_congr {p : Place} {f g : α → α}
    (hty : (st.layout[p.1]?).map (·.ty) = some ty) (hx : st.at? p = some x)
    (h : Element.round ty (f x) = Element.round ty (g x)) : st.modifyAt p f = st.modifyAt p g := by
  refine ext_at (by rw [layout_modifyAt, layout_modifyAt]) fun q => ?_
  by_cases hq : q = p
  · rw [hq, at?_modifyAt_self hty hx, at?_modifyAt_self hty hx, h]
  · rw [at?_modifyAt_of_ne hq, at?_modifyAt_of_ne hq]

omit [Element α] in
/-- Where there is an element, it can be read. -/
theorem Evaluator.term_of_place {ev : Evaluator} {p : Place}
    (hp : ev.place env st.layout b idx = some p) (hx : st.at? p = some x) :
    ev.term env st.layout (.read b idx) = some (.load p) := by
  obtain ⟨t, ht, hdata⟩ := Option.bind_eq_some_iff.1 hx
  have hslot : st.layout[p.1]? = some t.slot := by
    rw [Store.layout, List.getElem?_map, ht, Option.map_some]
  have hsize : p.2 < t.slot.size := (Array.getElem?_eq_some_iff.1 hdata).1
  simp [term, load, hp, hslot, hsize]

/-- **A staged reduction in one state.** Where the element holds a value of its type, the four
statements store what the reduction did, and leave the scalar behind. -/
theorem Stmt.traceAll_staged {c : Catalog} {callee : Callee}
    (hround : ∀ ty (x : α), Element.round ty (Element.round ty x) = Element.round ty x)
    {name : String} (hnew : env.lookup name = none) (hlt : env.ViewsBelow st.length) {rhs : Expr}
    {p : Place} {acts : List Action} (hp : checked.place env st.layout b idx = some p)
    (hty : (st.layout[p.1]?).map (·.ty) = some ty) (hx : st.at? p = some x)
    (hheld : Element.round ty x = x)
    (hs : (Stmt.store .add b idx rhs).trace .checked c callee env st.layout = some (acts, env)) :
    ∃ acts' e', traceAll .checked c callee env st.layout
        [.alloc { name, ty, shape := [], mem := .dram }, .store .set name [] (.read b idx),
          .store .add name [] rhs, .store .set b idx (.read name [])] = some (acts', e') ∧
      Enlarges st.length env (perform acts st) e' (perform acts' st) := by
  obtain ⟨t, p', ht, hp', ⟨⟩⟩ := trace_store.1 hs
  obtain rfl := Option.mem_unique hp hp'
  -- the element and the value are what they were, whatever the scalar holds
  obtain ⟨r, hr, hevr⟩ := term_beside hnew hlt (term_of_place hp hx) ty
  obtain ⟨t', ht', hevt⟩ := term_beside hnew hlt ht ty
  obtain ⟨hlen, hq⟩ := place_beside hnew hlt hp ty
  let sum := Element.round ty (Element.add x (t.eval st))
  refine traceAll_beside hnew hlt (x := sum) (traceAll_cons.2
    ⟨_, _, _, _, trace_store.2 ⟨r, _, hr, place_scalar .., rfl⟩,
      traceAll_cons.2 ⟨_, _, _, _,
        trace_store.2 ⟨t', _, ht', place_scalar .., rfl⟩,
        traceAll_singleton.2
          (trace_store.2 ⟨_, p, term_scalar .., hq, rfl⟩), rfl⟩, rfl⟩) rfl ?_
  have htake : (Action.store .set (st.layout.length, 0) r).perform
      (st ++ [.scalar ty Element.undefined]) = st ++ [.scalar ty x] := by
    rw [Action.perform, hevr, Store.length_layout, Store.modifyAt_scalar, Term.eval, hx,
      Option.getD_some, hheld]
  have hadd : (Action.store .add (st.layout.length, 0) t').perform (st ++ [.scalar ty x]) =
      st ++ [.scalar ty sum] := by
    rw [Action.perform, hevt, Store.length_layout, Store.modifyAt_scalar]
  -- what is stored back has been rounded before
  have hback : (Action.store .set p (.load (st.layout.length, 0))).perform
      (st ++ [.scalar ty sum]) = (Action.store .add p t).perform st ++ [.scalar ty sum] := by
    rw [Action.perform, Action.perform, Term.eval, Store.length_layout, Store.at?_scalar,
      Option.getD_some, Store.modifyAt_append hlen]
    congr 1
    exact Store.modifyAt_congr hty hx (hround ty _)
  simp only [List.singleton_append, perform_cons, perform_nil, htake, hadd, hback]

/-! ## Kernels -/

/-- Whenever the run of the kernel comes to the reduction at `path`, the element that it reduces
into is there and holds a value of its type. -/
def Proc.ReducesHeld (p : Proc) (c : Catalog) (args : Args α) (path : Path) : Prop :=
  ∀ env st b idx rhs q, p.stmt? path = some (.store .add b idx rhs) →
    p.Reaches c args path env st → st.locate env b idx = .ok q →
    ∃ t x, st[q.1]? = some t ∧ t.data[q.2]? = some x ∧ Element.round t.ty x = x

/-- **Staging a reduction keeps results.** A valid kernel runs to its end, and every element that
the selected reduction adds to holds a value of its type by then. If rounding twice is rounding
once, the kernel with the reduction staged runs to its end with the same tensors. -/
theorem Proc.run_stageReduction
    (hround : ∀ ty (x : α), Element.round ty (Element.round ty x) = Element.round ty x)
    {p out : Proc} {c : Catalog} {args : Args α} {templates : Scope.Templates}
    {name source : String} (hvalid : p.problems templates = [])
    (hstage : p.stageReduction name source = .ok out)
    (hheld : ∀ path, p.pickStmt source = .ok path → p.ReducesHeld c args path)
    (hrun : (p.run c args).1 = .ok ()) : out.run c args = (.ok (), (p.run c args).2) := by
  obtain ⟨path, b, idx, rhs, d, hpath, hs, hfresh, hd, hreplace⟩ := of_stageReduction hstage
  obtain ⟨body, hreplaced, rfl, -⟩ := replaced_of_replaceStmt hs hreplace
  rw [Proc.run_enlarged rfl hreplaced (fun env st acts hreach ht => ?_) hrun]
  · exact Prod.ext hrun rfl
  obtain ⟨-, q, -, hq, -⟩ := Stmt.trace_store.1 ht
  obtain ⟨_, _, _, _, _, _, htidy⟩ := hreach.fits hvalid
  have hlocate : st.locate env b idx = .ok q :=
    Evaluator.eq_ok_of_checked (Evaluator.checked.place_tallies st b idx) hq
  obtain ⟨t, x, htensor, hx, hfixed⟩ := hheld path hpath env st b idx rhs q hs hreach hlocate
  have hslot : (st.layout[q.1]?).map (·.ty) = some t.ty := by
    rw [Store.layout, List.getElem?_map, htensor]
    rfl
  -- the scalar has the type of the buffer
  obtain ⟨⟨w, hw, hnumber⟩, -⟩ := Evaluator.view_of_place hq
  obtain ⟨d', hd', hty⟩ := hreach.typed hvalid b w hw
  obtain rfl := Option.mem_unique hd hd'
  rw [hnumber, hslot, Option.some.injEq] at hty
  rw [← hty]
  exact Stmt.traceAll_staged hround (hreach.lookup_eq_none hfresh)
    (Store.length_layout st ▸ htidy.plain.lt) hq hslot (Option.bind_eq_some_iff.2 ⟨t, htensor, hx⟩)
    hfixed ht

/-- Adds a multiple of an element to the element. -/
def scaled : Proc where
  name := "scaled"
  params := [.buffer ⟨"y", .f32, [.int 1], .dram⟩, .buffer ⟨"x", .f32, [.int 1], .dram⟩]
  body := [.store .add "y" [.int 0] (.binary .mul (.read "x" [.int 0]) (.read "y" [.int 0]))]

/-- The same through a scalar. -/
def scaledStaged : Proc := { scaled with body := [
  .alloc ⟨"t", .f32, [], .dram⟩,
  .store .set "t" [] (.read "y" [.int 0]),
  .store .add "t" [] (.binary .mul (.read "x" [.int 0]) (.read "y" [.int 0])),
  .store .set "y" [.int 0] (.read "t" [])] }

def scaledArgs : Args Float := ⟨[], [("y", ⟨.f32, [1], #[3]⟩), ("x", ⟨.f32, [1], #[5]⟩)]⟩

theorem scaled_stageReduction : scaled.stageReduction "t" "y[_] += _" = .ok scaledStaged := by cbv

theorem scaled_reducesHeld (path : Path) : scaled.ReducesHeld {} scaledArgs path := by
  rintro env st b idx rhs q hs ⟨frame, hframe, hreach⟩ hq
  cases hframe
  cases hreach with
  | here =>
    cases hs
    cases hq
    exact ⟨_, 3, rfl, rfl, by decide +kernel⟩
  | next _ hreach => cases hreach

theorem scaled_staged :
    scaledStaged.run {} scaledArgs = (.ok (), (scaled.run {} scaledArgs).2) := by
  have hvalid : scaled.problems (some (Catalog.find? {})) = [] := rfl
  exact Proc.run_stageReduction Double.rounding.again hvalid scaled_stageReduction
    (fun path _ => scaled_reducesHeld path) rfl

end LoopNest
