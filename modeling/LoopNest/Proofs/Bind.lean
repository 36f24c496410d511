import LoopNest.Proofs.Contract.Steps
import LoopNest.Proofs.Enlarge
import LoopNest.Proofs.Rounding
import LoopNest.Proofs.Written

/-!
# Binding an expression to a temporary

`Proc.bindExpr` computes a part of a stored value into a new scalar first. The scalar rounds what it
holds, so the step keeps results where the type of the scalar holds the value as it is
(`Proc.run_bindExpr`). This is so of every expression that is given the type `f64`, of a plain read,
whose value has been rounded to the type of its buffer when it was written, and of a negation in a
floating type.

It is not so of a negation in an integer type. Such a type is not symmetric: the negation of its
least value is out of its range (`negated_least_bound`).
-/

namespace LoopNest

open Exec Stmt Evaluator

variable {value e : Expr} {t : Term} {steps : List Nat} {b : String} {idx : List Expr} {ty : Scalar}
  {u : Update}

/-! ## Expressions -/

namespace Evaluator

variable {ev : Evaluator} {env env' : Env} {lay lay' : Layout}

/-- A part of a data expression has a value, which is computed from what the expression reads. -/
theorem term_get (hget : e.get? steps = some value) (hout : e.leadsIntoIndex steps = false)
    (ht : ev.term env lay e = some t) :
    ∃ v, ev.term env lay value = some v ∧ v.loads ⊆ t.loads := by
  induction steps generalizing e t with
  | nil =>
    cases hget
    exact ⟨t, ht, List.Subset.refl _⟩
  | cons i steps ih =>
    cases e with
    | read b idx => cases hout
    | binary op l r =>
      obtain ⟨-, tl, tr, hl, hr, rfl⟩ := term_binary.1 ht
      match i with
      | 0 =>
        obtain ⟨v, hv, hsub⟩ := ih hget hout hl
        exact ⟨v, hv, List.subset_append_of_subset_left _ hsub⟩
      | 1 =>
        obtain ⟨v, hv, hsub⟩ := ih hget hout hr
        exact ⟨v, hv, List.subset_append_of_subset_right _ hsub⟩
      | i + 2 => cases hget
    | neg e =>
      obtain ⟨u, hu, rfl⟩ := term_neg.1 ht
      match i with
      | 0 =>
        obtain ⟨v, hv, hsub⟩ := ih hget hout hu
        exact ⟨v, hv, hsub⟩
      | i + 1 => cases hget
    | _ => cases hget

theorem data_of_checked {α : Type} [Element α] {st : Store α}
    (h : checked.term env st.layout e = some t) : st.data env e = .ok (t.eval st) :=
  eq_ok_of_checked (checked.term_tallies st e) h

theorem place_scalar (ev : Evaluator) (env : Env) (lay : Layout) (name : String) (ty : Scalar) :
    ev.place (env.bind name (.buffer (.whole lay.length name []))) (lay ++ [⟨ty, [], 1⟩]) name [] =
      some (lay.length, 0) := by
  have hview : Env.view? (env.bind name (.buffer (.whole lay.length name []))) name =
      some (.whole lay.length name []) := by
    rw [Env.view?_bind, if_pos rfl]
  have hslot : (lay ++ [⟨ty, [], 1⟩])[lay.length]? = some (⟨ty, [], 1⟩ : Slot) := by simp
  exact place_eq_some.2 ⟨_, [], hview, rfl, View.place?_eq_some.2 ⟨[], _, .nil, hslot, rfl, rfl⟩⟩

theorem term_scalar (ev : Evaluator) (env : Env) (lay : Layout) (name : String) (ty : Scalar) :
    ev.term (env.bind name (.buffer (.whole lay.length name []))) (lay ++ [⟨ty, [], 1⟩])
      (.read name []) = some (.load (lay.length, 0)) := by
  simp [term, load, place_scalar]

/-- With a part replaced by an expression of the same value an expression has the same value, if
this is so of all that is left aside. The induction is on the way down. -/
theorem term_set {α : Type} [Element α] {st st' : Store α}
    (haside : ∀ {e t}, ev.term env st.layout e = some t →
      ∃ t', ev.term env' lay' e = some t' ∧ t'.eval st' = t.eval st)
    {new : Expr} {v w : Term} (hget : e.get? steps = some value)
    (hout : e.leadsIntoIndex steps = false) (ht : ev.term env st.layout e = some t)
    (hv : ev.term env st.layout value = some v) (hw : ev.term env' lay' new = some w)
    (heval : w.eval st' = v.eval st) :
    ∃ e' t', Expr.set? new steps e = some e' ∧ ev.term env' lay' e' = some t' ∧
      t'.eval st' = t.eval st := by
  induction steps generalizing e t with
  | nil =>
    cases hget
    obtain rfl := Option.mem_unique ht hv
    exact ⟨new, w, rfl, hw, heval⟩
  | cons i steps ih =>
    cases e with
    | read b idx => cases hout
    | binary op l r =>
      obtain ⟨hop, tl, tr, hl, hr, rfl⟩ := term_binary.1 ht
      obtain _ | _ | i := i
      · -- the way leads to the left, and the right operand is left aside
        obtain ⟨l', tl', hset, hl', hevl⟩ := ih hget hout hl
        obtain ⟨tr', hr', hevr⟩ := haside hr
        refine ⟨.binary op l' r, .binary op tl' tr', ?_, ?_, ?_⟩
        · simp [Expr.set?, Expr.children, Expr.withChildren, hset]
        · exact term_binary.2 ⟨hop, tl', tr', hl', hr', rfl⟩
        · simp only [Term.eval, hevl, hevr]
      · obtain ⟨r', tr', hset, hr', hevr⟩ := ih hget hout hr
        obtain ⟨tl', hl', hevl⟩ := haside hl
        refine ⟨.binary op l r', .binary op tl' tr', ?_, ?_, ?_⟩
        · simp [Expr.set?, Expr.children, Expr.withChildren, hset]
        · exact term_binary.2 ⟨hop, tl', tr', hl', hr', rfl⟩
        · simp only [Term.eval, hevl, hevr]
      · cases hget
    | neg e =>
      obtain ⟨u, hu, rfl⟩ := term_neg.1 ht
      cases i with
      | zero =>
        obtain ⟨e', u', hset, hu', hev⟩ := ih hget hout hu
        refine ⟨.neg e', .neg u', ?_, ?_, ?_⟩
        · simp [Expr.set?, Expr.children, Expr.withChildren, hset]
        · simp [term, hu']
        · simp only [Term.eval, hev]
      | succ i => cases hget
    | _ => cases hget

end Evaluator

/-! ## The statements of a binding -/

section bound

variable {α : Type} [Element α]

/-- A scalar that holds one value. -/
def Tensor.scalar (ty : Scalar) (x : α) : Tensor α := ⟨ty, [], #[x]⟩

theorem Store.modifyAt_append {st : Store α} {p : Place} (hp : p.1 < st.length) (f : α → α)
    (t : Tensor α) : Store.modifyAt (st ++ [t]) p f = st.modifyAt p f ++ [t] := by
  apply List.ext_getElem?
  intro i
  have hlen : (st.modifyAt p f).length = st.length := by simp [modifyAt]
  by_cases hi : i < st.length
  · simp only [modifyAt, List.getElem?_modify, List.getElem?_append_left hi]
    rw [List.getElem?_append_left (by simpa using hi), List.getElem?_modify]
  · have hne : p.1 ≠ i := by omega
    simp only [modifyAt, List.getElem?_modify, hne, if_false,
      List.getElem?_append_right (Nat.not_lt.1 hi)]
    rw [List.getElem?_append_right (by simpa using hi), List.length_modify]
    simp

theorem Store.modifyAt_scalar (st : Store α) (ty : Scalar) (x : α) (f : α → α) :
    Store.modifyAt (st ++ [.scalar ty x]) (st.length, 0) f =
      st ++ [.scalar ty (Element.round ty (f x))] := by
  rw [modifyAt, List.modify_eq_take_cons_drop (by simp)]
  simp [Tensor.scalar, Tensor.modify, Array.modify, Array.modifyM]

omit [Element α] in
theorem Store.at?_scalar (st : Store α) (ty : Scalar) (x : α) :
    Store.at? (st ++ [.scalar ty x]) (st.length, 0) = some x := by
  simp [at?, Tensor.scalar]

/-! Beside a new scalar all is as before. -/

section beside

variable {c : Catalog} {callee : Callee} {ev : Evaluator} {env : Env} {st : Store α}
  {name : String} (hnew : env.lookup name = none)
  (hlt : env.ViewsBelow st.length)

include hnew hlt

omit [Element α] in
theorem Env.seats_scalar : env.Seats (Seat.raised st.layout.length 1) []
    (env.bind name (.buffer (.whole st.layout.length name []))) :=
  .raised (fun _ => lookup_bind_new hnew _) (Store.length_layout st ▸ hlt) 1

theorem Evaluator.term_beside (ht : ev.term env st.layout e = some t) (ty : Scalar) :
    ∃ t', ev.term (env.bind name (.buffer (.whole st.layout.length name [])))
        (st.layout ++ [⟨ty, [], 1⟩]) e = some t' ∧
      ∀ x, t'.eval (st ++ [.scalar ty x]) = t.eval st := by
  obtain ⟨t', ht', heval⟩ := Rewording.without_sound.term (Seats.raised st.layout [⟨ty, [], 1⟩])
    (Env.seats_scalar hnew hlt) (Rewording.without_data nofun) ht
  refine ⟨t', ht', fun x => (heval (Element.related_eq α) rfl ?_).symm⟩
  exact (Seated.refl _ st).raised (Nat.le_of_eq (Store.length_layout st)) 1 _

omit [Element α] in
theorem Evaluator.place_beside {p : Place} (hp : ev.place env st.layout b idx = some p)
    (ty : Scalar) :
    p.1 < st.length ∧ ev.place (env.bind name (.buffer (.whole st.layout.length name [])))
      (st.layout ++ [⟨ty, [], 1⟩]) b idx = some p := by
  obtain ⟨s, -, hs, -⟩ := hasPlace hp
  have hlen := (List.getElem?_eq_some_iff.1 hs).1
  obtain ⟨q, hq, hplace⟩ := Rewording.without_sound.place (Seats.raised st.layout [⟨ty, [], 1⟩])
    (Env.seats_scalar hnew hlt) ⟨nofun, rfl, rfl⟩ hp
  change (Seat.raised st.layout.length 1 p.1).Lies p.2 q at hq
  rw [Seat.raised_of_lt hlen, Seat.lies_whole] at hq
  obtain rfl : q = p := hq
  exact ⟨Store.length_layout st ▸ hlen, hplace⟩

/-- Statements that come to an action with a scalar behind it. -/
theorem Stmt.traceAll_beside {x : α} {b : Block} {acts acts' : List Action} {p : Place}
    (ht : traceAll .checked c callee (env.bind name (.buffer (.whole st.layout.length name [])))
      (st.layout ++ [⟨ty, [], 1⟩]) b =
        some (acts', env.bind name (.buffer (.whole st.layout.length name []))))
    (hacts : acts = [.store u p t])
    (hperform : perform acts' (st ++ [.scalar ty Element.undefined]) =
      perform acts st ++ [.scalar ty x]) :
    ∃ acts' e', traceAll .checked c callee env st.layout
        (.alloc { name, ty, shape := [], mem := .dram } :: b) = some (acts', e') ∧
      Enlarges st.length env (perform acts st) e' (perform acts' st) := by
  refine ⟨.alloc ty [] 1 :: acts', _, traceAll_cons.2 ⟨[.alloc ty [] 1], _, _, _,
    trace_alloc.2 ⟨[], 1, rfl, rfl, rfl⟩, ht, rfl⟩, ?_⟩
  have hblank : (Action.alloc ty [] 1).perform st = st ++ [.scalar ty Element.undefined] := rfl
  have hkept : (perform acts st).length = st.length := by
    rw [hacts, ← Store.length_layout, layout_perform, ← Store.length_layout]
    rfl
  rw [perform_cons, hblank, hperform]
  exact hkept ▸ .of_append (fun _ => Env.lookup_bind_new hnew _) (hkept.symm ▸ hlt) _

end beside

/-- **Binding in one state.** Where the type of the temporary holds the value of the expression, the
three statements store what the one did, and leave the temporary behind. -/
theorem Stmt.traceAll_bound {c : Catalog} {callee : Callee} {env : Env} {st : Store α}
    {name : String} (hnew : env.lookup name = none)
    (hlt : env.ViewsBelow st.length) {rhs : Expr} {acts : List Action}
    (hget : rhs.get? steps = some value) (hout : rhs.leadsIntoIndex steps = false)
    (hheld : ∀ v, Evaluator.checked.term env st.layout value = some v →
      Element.round ty (v.eval st) = v.eval st)
    (hs : (Stmt.store u b idx rhs).trace .checked c callee env st.layout = some (acts, env)) :
    ∃ acts' e', traceAll .checked c callee env st.layout
        [.alloc { name, ty, shape := [], mem := .dram }, .store .set name [] value,
          .store u b idx ((Expr.set? (.read name []) steps rhs).getD rhs)] = some (acts', e') ∧
      Enlarges st.length env (perform acts st) e' (perform acts' st) := by
  obtain ⟨t, p, ht, hp, ⟨⟩⟩ := trace_store.1 hs
  obtain ⟨v, hv, -⟩ := Evaluator.term_get hget hout ht
  -- the value goes into the temporary, which holds it as it is
  obtain ⟨v', hv', hevv⟩ := term_beside hnew hlt hv ty
  -- and the right-hand side has the same value with a read of the temporary in it
  have haside : ∀ {e t}, Evaluator.checked.term env st.layout e = some t → _ := fun ht =>
    (term_beside hnew hlt ht ty).imp fun t' h => h.imp_right fun h => h (v.eval st)
  obtain ⟨rhs', t', hset, ht', hevt⟩ := Evaluator.term_set haside hget hout ht hv
    (Evaluator.checked.term_scalar env st.layout name ty)
    (by rw [Term.eval, Store.length_layout, Store.at?_scalar, Option.getD_some])
  obtain ⟨hlen, hp'⟩ := place_beside hnew hlt hp ty
  rw [hset, Option.getD_some]
  refine traceAll_beside hnew hlt (x := v.eval st) (traceAll_cons.2
    ⟨_, _, _, _, trace_store.2 ⟨v', _, hv', Evaluator.place_scalar .., rfl⟩,
      traceAll_singleton.2 (trace_store.2 ⟨t', p, ht', hp', rfl⟩), rfl⟩) rfl ?_
  have hfill : (Action.store .set (st.layout.length, 0) v').perform
      (st ++ [.scalar ty Element.undefined]) = st ++ [.scalar ty (v.eval st)] := by
    rw [Action.perform, hevv, Store.length_layout, Store.modifyAt_scalar, hheld v hv]
  rw [List.singleton_append, perform_cons, hfill]
  cases u <;> simp only [perform_cons, perform_nil, Action.perform, Store.modifyAt_append hlen, hevt]

end bound

/-! ## What temporaries hold -/

section held

variable {α : Type} [Element α] {p : Proc} {path : Path} {env : Env} {st : Store α}
  {marks : Store Mark} {v : Term}

/-- The type of a buffer holds what is read from it. -/
theorem Kept.round_read (hkept : Kept st marks) (hlay : st.layout = marks.layout)
    {decl? : String → Option Decl} (htyped : env.Typed decl? st.layout) {d : Decl}
    (hd : decl? b = some d) (hv : Evaluator.checked.term env st.layout (.read b idx) = some v)
    (hmarks : ∀ q ∈ v.loads, marks.at? q = some .written) :
    Element.round d.ty (v.eval st) = v.eval st := by
  obtain ⟨q, hq, rfl⟩ := term_read.1 hv
  have hmark := hmarks q (List.mem_singleton.2 rfl)
  obtain ⟨x, hx⟩ := Store.exists_at?_of_layout hlay.symm hmark
  rw [Term.eval, hx, Option.getD_some]
  refine hkept q x d.ty hmark hx ?_
  obtain ⟨⟨w, hw, htensor⟩, -⟩ := view_of_place (load_eq_some.1 hq).1
  obtain ⟨d', hd', hty⟩ := htyped b w hw
  obtain rfl := Option.mem_unique hd hd'
  rwa [← htensor]

/-- **What a temporary holds.** The type that is chosen for it holds the value of the expression, if
it holds it where the expression is a negation and the type is one of integers. -/
theorem Kept.round_value (hround : Rounding α) (hkept : Kept st marks)
    (hlay : st.layout = marks.layout) (htyped : env.Typed (p.visibleDecl? path) st.layout)
    (hty : p.valueType path value = .ok ty)
    (hv : Evaluator.checked.term env st.layout value = some v)
    (hmarks : ∀ q ∈ v.loads, marks.at? q = some .written)
    (hneg : ∀ e, value = .neg e → ty.isFloat = false → Element.round ty (v.eval st) = v.eval st) :
    Element.round ty (v.eval st) = v.eval st := by
  induction value generalizing v with
  | read b idx =>
    rw [Proc.valueType] at hty
    split at hty
    next d hd =>
      have hread := hkept.round_read hlay htyped hd hv hmarks
      rwa [Except.ok.inj hty] at hread
    · cases hty
  | neg e ih =>
    -- a single holds the negation of a single, however often it is negated
    obtain ⟨u, hu, rfl⟩ := Evaluator.term_neg.1 hv
    cases ty with
    | f64 => exact hround.double _
    | f32 => exact hround.single _ (ih hty hu hmarks fun _ _ h => nomatch h)
    | _ => exact hneg e rfl rfl
  | _ =>
    cases hty
    exact hround.double _

end held

/-! ## Kernels -/

section kernels

variable {α : Type} [Element α]

/-- Where the selected expression is a negation in an integer type, its values in the run of the
kernel are of that type. -/
def Proc.NegatesInRange (p : Proc) (c : Catalog) (args : Args α) (source : String) : Prop :=
  ∀ sel path slot steps e ty, selector source = .ok sel →
    p.resolveExpr? sel = .ok (path, slot, steps) → p.expr? path slot steps = some (.neg e) →
    p.valueType path e = .ok ty → ty.isFloat = false →
    ∀ env st x, p.Reaches c args path env st → st.data env (.neg e) = .ok x → Element.round ty x = x

/-- **Binding an expression keeps results.** A valid kernel runs to its end on arguments that hold
values of their types, and it computes nothing from elements that were never written. If the
selected expression is no negation in an integer type, or one that stays in its range, the kernel
with the expression bound to a temporary runs to its end with the same tensors. -/
theorem Proc.run_bindExpr (hround : Rounding α) {p out : Proc} {c : Catalog} {args : Args α}
    {templates : Scope.Templates} {name source : String} (hvalid : p.problems templates = [])
    (hbind : p.bindExpr name source = .ok out) (hargs : args.Held)
    (hwritten : p.ReadsWritten c args) (hneg : p.NegatesInRange c args source)
    (hrun : (p.run c args).1 = .ok ()) : out.run c args = (.ok (), (p.run c args).2) := by
  obtain ⟨bound⟩ := boundExpr_of_bindExpr hbind
  obtain ⟨b, hreplaced, rfl, -⟩ := replaced_of_replaceStmt bound.stmt bound.replaced
  rw [Proc.run_enlarged rfl hreplaced (fun env st acts hreach ht => ?_) hrun]
  · exact Prod.ext hrun rfl
  obtain ⟨t, q, hterm, -, -⟩ := Stmt.trace_store.1 ht
  obtain ⟨_, _, _, _, _, _, htidy⟩ := hreach.fits hvalid
  -- no name of the kernel is that of the temporary
  have hnew : env.lookup name = none := hreach.lookup_eq_none bound.fresh
  refine Stmt.traceAll_bound hnew (Store.length_layout st ▸ htidy.plain.lt) bound.found
    bound.outside (fun v hv => ?_) ht
  -- beside the state there is one with marks, where all that the statement reads is written
  obtain ⟨marks, hmarked, hlay, hkept⟩ := hreach.kept hround.again hargs hrun
  obtain ⟨t', ht', heval⟩ := (Evaluator.checked.term_tallies marks bound.rhs).found
    (hwritten _ _ _ _ _ _ _ hmarked bound.stmt)
  obtain rfl : t' = t := by
    rw [← hlay, hterm] at ht'
    exact (Option.some.inj ht').symm
  obtain ⟨v', hv', hsub⟩ := Evaluator.term_get bound.found bound.outside hterm
  obtain rfl := Option.mem_unique hv hv'
  refine hkept.round_value hround hlay (hreach.typed hvalid) bound.typed hv
    (fun q hq => Term.at?_of_eval_written heval q (hsub hq)) fun e he hint => ?_
  have hexpr : p.expr? bound.path bound.idx.length bound.steps = some (.neg e) := by
    simp [expr?, bound.stmt, Stmt.exprs, bound.found, he]
  have htype := bound.typed
  rw [he] at htype hv
  exact hneg bound.sel bound.path bound.idx.length bound.steps e bound.ty bound.selected
    bound.resolved hexpr htype hint env st _ hreach (Evaluator.data_of_checked hv)

end kernels

/-- Negates a byte into a double. -/
def negated : Proc where
  name := "negated"
  params := [.buffer ⟨"y", .f64, [.int 1], .dram⟩, .buffer ⟨"x", .i8, [.int 1], .dram⟩]
  body := [.store .set "y" [.int 0] (.neg (.read "x" [.int 0]))]

/-- The same with the negation bound to a temporary, which is a byte as well. -/
def negatedBound : Proc := { negated with body := [
  .alloc ⟨"t", .i8, [], .dram⟩,
  .store .set "t" [] (.neg (.read "x" [.int 0])),
  .store .set "y" [.int 0] (.read "t" [])] }

theorem negated_bindExpr : negated.bindExpr "t" "-x[_]" = .ok negatedBound := by cbv

/-- A double `0` to write to, and a byte. -/
def negatedArgs (x : Float) : Args Float :=
  ⟨[], [("y", ⟨.f64, [1], #[0]⟩), ("x", ⟨.i8, [1], #[x]⟩)]⟩

theorem negatedArgs_held {x : Float} (h : Double.round .i8 x = x) : (negatedArgs x).Held := by
  intro b hb y hy
  simp only [negatedArgs, List.mem_cons, List.not_mem_nil, or_false] at hb
  obtain rfl | rfl := hb
  · rfl
  · obtain rfl := List.mem_singleton.1 (Array.mem_toList_iff.2 hy)
    exact h

theorem negated_readsWritten (x : Float) : negated.ReadsWritten {} (negatedArgs x) := by
  rintro path env st u b idx rhs ⟨frame, hframe, hreach⟩ hstmt
  cases hframe
  cases hreach with
  | here =>
    cases hstmt
    rfl
  | next _ hreach => cases hreach

/-- The negation of 5 is a byte. -/
theorem negated_five_bound :
    negatedBound.run {} (negatedArgs 5) = (.ok (), (negated.run {} (negatedArgs 5)).2) := by
  have hvalid : negated.problems (some (Catalog.find? {})) = [] := rfl
  refine Proc.run_bindExpr Double.rounding hvalid negated_bindExpr
    (negatedArgs_held (by decide +kernel)) (negated_readsWritten 5) ?_ rfl
  rintro sel path slot steps e ty hsel hresolve hexpr hty - env st x ⟨frame, hframe, hreach⟩ hx
  have hsel' : Proc.selector "-x[_]" =
      .ok ⟨.expr (.neg (.read "x" [.var "_"])), none, "-x[_]"⟩ := by
    cbv
  cases hsel.symm.trans hsel'
  cases hresolve
  cases hexpr
  cases hty
  cases hframe
  cases hreach
  cases hx
  rfl

/-- The negation of the least byte is none: the kernel writes 128, and it writes 127 once the
negation is bound. -/
theorem negated_least_bound :
    negated.problems (some (Catalog.find? {})) = [] ∧
      negated.bindExpr "t" "-x[_]" = .ok negatedBound ∧ (negatedArgs (-128)).Held ∧
      negated.ReadsWritten {} (negatedArgs (-128)) ∧
      negated.run {} (negatedArgs (-128)) = (.ok (), ⟨[], [("y", ⟨.f64, [1], #[128]⟩),
        ("x", ⟨.i8, [1], #[-128]⟩)]⟩) ∧
      negatedBound.run {} (negatedArgs (-128)) = (.ok (), ⟨[], [("y", ⟨.f64, [1], #[127]⟩),
        ("x", ⟨.i8, [1], #[-128]⟩)]⟩) :=
  ⟨rfl, negated_bindExpr, negatedArgs_held (by decide +kernel), negated_readsWritten _, rfl, rfl⟩

end LoopNest
