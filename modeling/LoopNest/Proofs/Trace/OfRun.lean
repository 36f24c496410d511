import LoopNest.Proofs.Reach
import LoopNest.Proofs.Trace.Layout

/-!
# From runs to traces

A statement that runs to its end has a trace, for every evaluator, and the store it leaves is the
trace carried out (`Stmt.trace_of_exec`). The proof is an induction over blocks, with calls handled
by induction on how deep they are nested (`Block.trace_covers`).
-/

namespace LoopNest

open Exec Stmt

/-! ## Computations on the store, step by step -/

section steps

variable {α β γ : Type} {x : Exec α β} {f : β → Exec α γ} {st st' : Store α} {b : β}

theorem run_bind_ok (h : x.run.run st = (.ok b, st')) :
    (x >>= f).run.run st = (f b).run.run st' := by
  have h' : x st = (.ok b, st') := h
  show (ExceptT.bind x f) st = _
  simp only [ExceptT.bind, ExceptT.mk, bind, StateT.bind, h', ExceptT.bindCont]
  rfl

theorem run_bind_error {e : Failure} (h : x.run.run st = (.error e, st')) :
    (x >>= f).run.run st = (.error e, st') := by
  have h' : x st = (.error e, st') := h
  show (ExceptT.bind x f) st = _
  simp only [ExceptT.bind, ExceptT.mk, bind, StateT.bind, h', ExceptT.bindCont]
  rfl

/-- A computation that ends went through the end of its first part. -/
theorem run_bind_eq_ok {st'' : Store α} {d : γ} :
    (x >>= f).run.run st = (.ok d, st'') ↔
      ∃ b st', x.run.run st = (.ok b, st') ∧ (f b).run.run st' = (.ok d, st'') := by
  constructor
  · intro h
    cases hx : x.run.run st with
    | mk r st' =>
      cases r with
      | ok b => exact ⟨b, st', rfl, by rw [← h, run_bind_ok hx]⟩
      | error e => exact absurd (congrArg Prod.fst ((run_bind_error hx).symm.trans h)) nofun
  · rintro ⟨b, st', hx, hf⟩
    rw [run_bind_ok hx, hf]

theorem run_eval (x : Except Failure β) (st : Store α) :
    (eval x : Exec α β).run.run st = (x, st) := rfl

theorem run_eval_eq_ok {x : Except Failure β} :
    (eval x : Exec α β).run.run st = (.ok b, st') ↔ x = .ok b ∧ st = st' := by
  rw [run_eval, Prod.mk.injEq]

theorem run_pure_eq_ok {d : β} :
    (pure b : Exec α β).run.run st = (.ok d, st') ↔ b = d ∧ st = st' := by
  show ((Except.ok b : Except Failure β), st) = (.ok d, st') ↔ _
  rw [Prod.mk.injEq, Except.ok.injEq]

theorem run_get_eq_ok {s : Store α} :
    (get : Exec α (Store α)).run.run st = (.ok s, st') ↔ st = s ∧ st = st' := by
  show ((Except.ok st : Except Failure (Store α)), st) = (.ok s, st') ↔ _
  rw [Prod.mk.injEq, Except.ok.injEq]

theorem run_modify_eq_ok {f : Store α → Store α} {u : PUnit} :
    (modify f : Exec α PUnit).run.run st = (.ok u, st') ↔ f st = st' := by
  show ((Except.ok PUnit.unit : Except Failure PUnit), f st) = (.ok u, st') ↔ _
  rw [Prod.mk.injEq, Except.ok.injEq]
  exact ⟨fun h => h.2, fun h => ⟨rfl, h⟩⟩

theorem run_throw_ne_ok {f : Failure} : (throw f : Exec α β).run.run st ≠ (.ok b, st') := by
  show ((Except.error f : Except Failure β), st) ≠ (.ok b, st')
  simp

theorem run_inScope (x : Exec α β) (st : Store α) :
    (inScope x).run.run st = ((x.run.run st).1, (x.run.run st).2.take st.length) := rfl

theorem run_inScope_eq_ok :
    (inScope x).run.run st = (.ok b, st') ↔
      ∃ s, x.run.run st = (.ok b, s) ∧ s.take st.length = st' := by
  rw [run_inScope]
  constructor
  · intro h
    obtain ⟨h1, h2⟩ := Prod.mk.inj h
    exact ⟨_, Prod.ext h1 rfl, h2⟩
  · rintro ⟨s, hx, rfl⟩
    rw [hx]

end steps

variable {env : Env} {buf : String} {idx : List Expr}

theorem Catalog.enter_eq_ok {c : Catalog} {inner : Env} {name : String} {args : List Window}
    {body : Block} :
    c.enter env name args = .ok (inner, body) ↔
      ∃ t, c.find? name = some t ∧ t.params.length = args.length ∧
        env.enter [] (t.params.zip args) = .ok inner ∧ body = t.body := by
  unfold Catalog.enter
  cases c.find? name with
  | none => simp [failWith]
  | some t =>
    by_cases hlen : t.params.length = args.length
    · simp only [hlen, ne_eq, not_true_eq_false, if_false, except_bind_eq_ok]
      constructor
      · rintro ⟨e, he, h⟩
        cases h
        exact ⟨t, rfl, hlen, he, rfl⟩
      · rintro ⟨u, hu, -, he, rfl⟩
        obtain rfl := Option.some.inj hu
        exact ⟨inner, he, rfl⟩
    · simp only [ne_eq, hlen, not_false_eq_true, if_true, failWith]
      constructor
      · intro h
        cases h
      · rintro ⟨u, hu, h, -⟩
        obtain rfl := Option.some.inj hu
        exact absurd h hlen

theorem Env.indices_eq_ok {es : List Expr} {ns : List Word} :
    env.indices es = .ok ns ↔ List.Forall₂ (fun e n => env.index e = .ok n) es ns := by
  induction es generalizing ns with
  | nil =>
    rw [List.forall₂_nil_left_iff, indices, Except.ok.injEq]
    exact eq_comm
  | cons e es ih =>
    simp only [indices, except_bind_eq_ok, ih, List.forall₂_cons_left_iff, pure, Except.pure,
      Except.ok.injEq, eq_comm (a := ns), exists_and_left]

theorem Env.address_eq_ok {v : View} {cs : List Word} : env.address buf idx = .ok (v, cs) ↔
      env.view? buf = some v ∧ ∃ ns, env.indices idx = .ok ns ∧ View.Finds v.dims ns cs := by
  simp only [address, except_bind_eq_ok, Env.view_eq_ok, ← View.coordinates_eq_ok]
  constructor
  · rintro ⟨v, hv, ns, hns, cs, hcs, h⟩
    cases h
    exact ⟨hv, ns, hns, hcs⟩
  · rintro ⟨hv, ns, hns, hcs⟩
    exact ⟨v, hv, ns, hns, cs, hcs, rfl⟩

theorem Store.locate_eq_ok {α : Type} {st : Store α} {p : Place} :
    st.locate env buf idx = .ok p ↔ ∃ v cs t, env.address buf idx = .ok (v, cs) ∧
      st[v.tensor]? = some t ∧ t.offset? cs = some p.2 ∧ p.1 = v.tensor := by
  simp only [locate, except_bind_eq_ok, Prod.exists]
  refine exists_congr fun v => exists_congr fun cs => ?_
  cases ht : st[v.tensor]? with
  | none => simp [failWith]
  | some t =>
    cases ho : t.offset? cs with
    | none => simp [failWith, ho]
    | some o => simp [ho, Prod.ext_iff, pure, Except.pure, and_comm, eq_comm]

/-- What is loaded lies at the place of the access. -/
theorem Store.load_eq_ok {α : Type} {st : Store α} {a : α} : st.load env buf idx = .ok a ↔
      ∃ p, st.locate env buf idx = .ok p ∧ st.at? p = some a := by
  simp only [load, except_bind_eq_ok, Prod.exists, locate_eq_ok]
  constructor
  · rintro ⟨v, cs, hvc, h⟩
    cases ht : st[v.tensor]? with
    | none => simp [ht, failWith] at h
    | some t =>
      cases ho : t.offset? cs with
      | none => simp [ht, Tensor.get?, ho, failWith] at h
      | some o =>
        cases hget : t.data[o]? with
        | none => simp [ht, Tensor.get?, ho, hget, failWith] at h
        | some x =>
          simp only [ht, Option.bind_some, Tensor.get?, ho, hget] at h
          cases h
          exact ⟨v.tensor, o, ⟨v, cs, t, hvc, ht, ho, rfl⟩, by simp [at?, ht, hget]⟩
  · rintro ⟨k, o, ⟨v, cs, t, hvc, ht, ho, rfl⟩, ha⟩
    simp only [at?, ht, Option.bind_some] at ha
    exact ⟨v, cs, hvc, by simp [ht, Tensor.get?, ho, ha, pure, Except.pure]⟩

/-! ## The parts of a statement

An evaluator has all values of the machine. Where it has one, that is the machine's value, unless the
machine overflows on the way. -/

/-- The evaluator has a value for an index expression on which the machine overflows. -/
def Evaluator.Misses (ev : Evaluator) (env : Env) (e : Expr) : Prop :=
  (ev.eval env e).isSome ∧ env.index e = .error .overflow

/-- The evaluator misses an overflow in one of the expressions. -/
def Evaluator.MissesIn (ev : Evaluator) (env : Env) (es : List Expr) : Prop :=
  ∃ e ∈ es, ev.Misses env e

theorem Evaluator.MissesIn.mono {ev : Evaluator} {es es' : List Expr} (h : ev.MissesIn env es)
    (hsub : es ⊆ es') : ev.MissesIn env es' := by
  obtain ⟨e, he, hm⟩ := h
  exact ⟨e, hsub he, hm⟩

/-- `x` is `b`, or it overflows and `ovf` holds. -/
def Gives {β : Type} (ovf : Prop) (x : Except Failure β) (b : β) : Prop :=
  x = .ok b ∨ x = .error .overflow ∧ ovf

/-- `x` has the value of what `o` has, but that it may overflow instead where `ovf` holds. -/
structure Tallies {β γ : Type} (ovf : Prop) (value : γ → β) (x : Except Failure β) (o : Option γ) :
    Prop where
  found : ∀ {b}, x = .ok b → ∃ c, o = some c ∧ value c = b
  gives : ∀ {c}, o = some c → Gives ovf x (value c)

namespace Tallies

variable {β γ β' γ' : Type} {ovf ovf' : Prop} {value : γ → β} {x : Except Failure β} {o : Option γ}

theorem eq_some {o : Option β} (h : Tallies ovf id x o) {b : β} (hb : x = .ok b) : o = some b := by
  obtain ⟨c, hc, rfl⟩ := h.found hb
  exact hc

theorem of_iff {o : Option β} (h : ∀ {b}, x = .ok b ↔ o = some b) : Tallies ovf id x o where
  found hb := ⟨_, h.1 hb, rfl⟩
  gives hc := .inl (h.2 hc)

theorem ok (c : γ) : Tallies ovf value (.ok (value c)) (some c) where
  found h := ⟨c, rfl, Except.ok.inj h⟩
  gives h := .inl (by rw [Option.some.inj h])

theorem fail (f : Failure) : Tallies ovf value (.error f) none := ⟨nofun, nofun⟩

theorem noOverflow (o : Option β) : Tallies ovf id (noOverflow o) o := of_iff noOverflow_eq_ok

theorem mono (h : Tallies ovf value x o) (himp : ovf → ovf') : Tallies ovf' value x o where
  found := h.found
  gives hc := (h.gives hc).imp_right fun ⟨hx, ho⟩ => ⟨hx, himp ho⟩

theorem bind {value' : γ' → β'} {f : β → Except Failure β'} {g : γ → Option γ'}
    (hx : Tallies ovf value x o) (hf : ∀ c, Tallies ovf value' (f (value c)) (g c)) :
    Tallies ovf value' (x >>= f) (o.bind g) where
  found h := by
    obtain ⟨_, hb, h⟩ := except_bind_eq_ok.1 h
    obtain ⟨c, rfl, rfl⟩ := hx.found hb
    exact (hf c).found h
  gives h := by
    obtain ⟨c, hc, h⟩ := Option.bind_eq_some_iff.1 h
    obtain rfl | ⟨rfl, ho⟩ := hx.gives hc
    · exact (hf c).gives h
    · exact .inr ⟨rfl, ho⟩

end Tallies

namespace Evaluator

variable {e : Expr} {es es' : List Expr}

theorem not_misses_checked {env : Env} : ¬ checked.Misses env e := by
  rintro ⟨h, he⟩
  simp [checked, he, Except.toOption] at h

variable (ev : Evaluator) {env : Env}

/-- Machine evaluation misses nothing. -/
theorem eq_ok_of_checked {β γ : Type} {value : γ → β} {x : Except Failure β} {o : Option γ}
    (h : Tallies (checked.MissesIn env es) value x o) {c : γ} (hc : o = some c) :
    x = .ok (value c) :=
  (h.gives hc).resolve_right fun ⟨_, _, _, hm⟩ => not_misses_checked hm

/-- The value of an index expression in a list. -/
theorem index_tallies (he : e ∈ es) :
    Tallies (ev.MissesIn env es) id (env.index e) (ev.eval env e) where
  found h := ⟨_, ev.of_index h, rfl⟩
  gives {n} h := by
    obtain ⟨m, hmn, hm⟩ | hn := Env.index_of_wide? (ev.to_wide h)
    · exact .inl (by rw [hm, Int64.toInt_inj.1 hmn]; rfl)
    · exact .inr ⟨hn, e, he, by simp [h], hn⟩

theorem indices_tallies (hes : es ⊆ es') :
    Tallies (ev.MissesIn env es') id (env.indices es) (ev.indices env es) := by
  induction es with
  | nil => exact .ok []
  | cons e es ih =>
    obtain ⟨he, hes⟩ := List.cons_subset.1 hes
    rw [indices, List.mapM_cons]
    exact (ev.index_tallies he).bind fun n => (ih hes).bind fun ns => .ok _

theorem condition_tallies (e : Expr) :
    Tallies (ev.MissesIn env e.operands) id (env.condition e) (ev.condition env e) := by
  fun_induction ev.condition env e with
  | case1 l r ihl ihr =>
    rw [Env.condition, Expr.operands]
    refine (ihl.mono (·.mono (List.subset_append_left _ _))).bind fun b => ?_
    cases b with
    | false => exact .ok _
    | true => exact ihr.mono (·.mono (List.subset_append_right _ _))
  | case2 op l r hop =>
    rw [Env.condition.eq_2 _ _ _ _ hop, Expr.operands.eq_2 _ _ _ hop]
    refine (ev.index_tallies (by simp)).bind fun x => (ev.index_tallies (by simp)).bind fun y => ?_
    cases op <;> first | exact .ok _ | exact .fail _
  | case3 e h1 h2 =>
    rw [Env.condition.eq_3 _ _ h1 h2]
    exact .fail _

theorem condition_of_checked {t : Bool} (h : checked.condition env e = some t) :
    env.condition e = .ok t :=
  eq_ok_of_checked (checked.condition_tallies e) h

theorem extents_tallies (buf : String) (hes : es ⊆ es') :
    Tallies (ev.MissesIn env es') id (env.extents buf es) (ev.extents env es) := by
  induction es with
  | nil => exact .ok []
  | cons e es ih =>
    obtain ⟨he, hes⟩ := List.cons_subset.1 hes
    rw [extents, List.mapM_cons, Option.bind_eq_bind, Option.bind_eq_bind, Option.bind_assoc]
    refine (ev.index_tallies he).bind fun n => ?_
    by_cases hneg : n < 0
    · simp only [id, hneg, if_true]
      exact .fail _
    · simp only [id, hneg, if_false]
      exact (ih hes).bind fun ns => .ok _

theorem cuts_cons_bind {β : Type} (d : WindowDim) (ds : List WindowDim) (f : List Cut → Option β) :
    (ev.cuts env (d :: ds)).bind f =
      (ev.cut env d).bind fun c => (ev.cuts env ds).bind fun cs => f (c :: cs) := by
  simp [cuts, List.mapM_cons, Option.bind_assoc]

/-- A window cuts the dimensions of a view one after the other. -/
theorem narrow_tallies (w : Window) (dims : List ViewDim) {ds : List WindowDim}
    (hds : ds.flatMap (·.exprs) ⊆ es) :
    Tallies (ev.MissesIn env es) id (env.narrow w dims ds)
      ((ev.cuts env ds).bind (View.cutDims dims)) := by
  fun_induction Env.narrow env w dims ds with
  | case1 => exact .ok []
  | case2 d ds =>
    have hnone : (ev.cuts env (d :: ds)).bind (View.cutDims []) = none := by
      rw [cuts_cons_bind]
      cases ev.cut env d <;> cases ev.cuts env ds <;> rfl
    rw [hnone]
    exact .fail _
  | case3 c dims ds ih =>
    have hcuts : (ev.cuts env ds).bind (View.cutDims (.fixed c :: dims)) =
        ((ev.cuts env ds).bind (View.cutDims dims)).bind fun rest => some (.fixed c :: rest) :=
      (Option.bind_assoc ..).symm
    rw [hcuts]
    exact (ih hds).bind fun rest => .ok _
  | case4 => exact .fail _
  | case5 offset extent dims e ds ih =>
    obtain ⟨he, hds⟩ := List.cons_subset.1 hds
    simp only [cuts_cons_bind, cut, Option.bind_eq_bind, Option.bind_assoc]
    refine (ev.index_tallies he).bind fun p => ?_
    -- the view is cut when all cuts are known, the run cuts dimension by dimension
    have hcuts : ((ev.cuts env ds).bind fun cs =>
        View.cutDims (.free offset extent :: dims) (.point p :: cs)) =
        if p < 0 ∨ extent ≤ p then none else (Word.add? offset p).bind fun c =>
          ((ev.cuts env ds).bind (View.cutDims dims)).bind fun rest => some (.fixed c :: rest) := by
      cases ev.cuts env ds <;> simp [View.cutDims]
    simp only [Option.pure_def, Option.bind_some, hcuts, id]
    split
    · exact .fail _
    · exact (Tallies.noOverflow _).bind fun c => (ih hds).bind fun rest => .ok _
  | case6 offset extent dims lo hi ds ih =>
    obtain ⟨hlo, hds⟩ := List.cons_subset.1 hds
    obtain ⟨hhi, hds⟩ := List.cons_subset.1 hds
    simp only [cuts_cons_bind, cut, Option.bind_eq_bind, Option.bind_assoc]
    refine (ev.index_tallies hlo).bind fun a => (ev.index_tallies hhi).bind fun b => ?_
    have hcuts : ((ev.cuts env ds).bind fun cs =>
        View.cutDims (.free offset extent :: dims) (.range a b :: cs)) =
        if a < 0 ∨ extent < b ∨ b < a then none else (Word.add? offset a).bind fun start =>
          (Word.sub? b a).bind fun count => ((ev.cuts env ds).bind (View.cutDims dims)).bind
            fun rest => some (.free start count :: rest) := by
      cases ev.cuts env ds <;> simp [View.cutDims]
    simp only [Option.pure_def, Option.bind_some, hcuts, id]
    split
    · exact .fail _
    · exact (Tallies.noOverflow _).bind fun start => (Tallies.noOverflow _).bind fun count =>
        (ih hds).bind fun rest => .ok _

theorem window_tallies (w : Window) :
    Tallies (ev.MissesIn env w.exprs) id (env.window w) (ev.window env w) := by
  refine (Tallies.of_iff Env.view_eq_ok).bind fun base => ?_
  simp only [Option.bind_eq_bind, ← Option.bind_assoc]
  exact (ev.narrow_tallies w base.dims (List.Subset.refl _)).bind fun dims => .ok _

theorem enter_tallies (inner : Env) {l : List (Param × Window)} (hl : l.flatMap (·.2.exprs) ⊆ es) :
    Tallies (ev.MissesIn env es) id (env.enter inner l) (ev.enter env inner l) := by
  induction l generalizing inner with
  | nil => exact .ok inner
  | cons pw l ih =>
    obtain ⟨hw, hl⟩ := List.append_subset.1 hl
    exact ((ev.window_tallies pw.2).mono (·.mono hw)).bind fun v => ih _ hl

section data

variable {α : Type} (st : Store α) (buf : String) (idx : List Expr)

/-- What is found behind the coordinates of an access. -/
theorem address_tallies {β γ : Type} {value : γ → β} {f : View × List Word → Except Failure β}
    {g : View → List Word → Option γ}
    (h : ∀ v cs, Tallies (ev.MissesIn env idx) value (f (v, cs)) (g v cs)) :
    Tallies (ev.MissesIn env idx) value (env.address buf idx >>= f)
      ((env.view? buf).bind fun v => (ev.indices env idx).bind fun ns =>
        (v.coordinates ns).toOption.bind (g v)) := by
  have hcoordinates : ∀ (v : View) (ns : List Word),
      Tallies (ev.MissesIn env idx) id (v.coordinates ns) (v.coordinates ns).toOption := by
    intro v ns
    cases v.coordinates ns with
    | ok cs => exact .ok cs
    | error f => exact .fail f
  simp only [Env.address, bind_assoc, pure_bind]
  exact (Tallies.of_iff Env.view_eq_ok).bind fun v =>
    (ev.indices_tallies (List.Subset.refl _)).bind fun ns => (hcoordinates v ns).bind (h v)

theorem place_tallies :
    Tallies (ev.MissesIn env idx) id (st.locate env buf idx) (ev.place env st.layout buf idx) := by
  refine ev.address_tallies buf idx fun v cs => ?_
  simp only [Store.layout, List.getElem?_map]
  cases st[v.tensor]? with
  | none => exact .fail _
  | some t =>
    simp only [Option.map_some, Option.bind_eq_bind, Option.bind_some, Tensor.slot, Tensor.offset?]
    cases Tensor.offsetFrom? 0 t.shape cs with
    | none => exact .fail _
    | some o => exact .ok _

theorem load_tallies [Element α] :
    Tallies (ev.MissesIn env idx) (fun p => (st.at? p).getD Element.undefined)
      (st.load env buf idx) (ev.load env st.layout buf idx) := by
  simp only [load, place, View.place?, Option.bind_eq_bind, Option.bind_assoc, Option.pure_def,
    Option.bind_some]
  refine ev.address_tallies buf idx fun v cs => ?_
  simp only [Store.layout, List.getElem?_map]
  cases ht : st[v.tensor]? with
  | none => exact .fail _
  | some t =>
    simp only [Option.map_some, Option.bind_some, Tensor.slot, Tensor.get?, Tensor.offset?]
    cases Tensor.offsetFrom? 0 t.shape cs with
    | none => exact .fail _
    | some o =>
      by_cases hsize : o < t.data.size
      · have hx : t.data[o]? = some t.data[o] := Array.getElem?_eq_getElem hsize
        have hat : (st.at? (v.tensor, o)).getD Element.undefined = t.data[o] := by
          simp [Store.at?, ht, hx]
        simp only [Option.bind_some, hx, hsize, if_true, ← hat]
        exact .ok _
      · have hx : t.data[o]? = none := Array.getElem?_eq_none (Nat.le_of_not_lt hsize)
        simp only [Option.bind_some, hx, hsize, if_false]
        exact .fail _

theorem term_tallies [Element α] (e : Expr) :
    Tallies (ev.MissesIn env e.subscripts) (Term.eval st) (st.data env e)
      (ev.term env st.layout e) := by
  induction e with
  | var v =>
    rw [term, Option.map_eq_bind]
    exact (Tallies.of_iff Env.index_var_eq_ok).bind fun n => .ok (Term.word n)
  | int n => exact .ok (Term.word n)
  | float x => exact .ok (Term.float x)
  | read b idx =>
    rw [term, Option.map_eq_bind, Store.data, ← bind_pure (st.load env b idx)]
    exact (ev.load_tallies st b idx).bind fun p => .ok (Term.load p)
  | binary op l r ihl ihr =>
    refine (ihl.mono (·.mono (List.subset_append_left _ _))).bind fun t => ?_
    refine (ihr.mono (·.mono (List.subset_append_right _ _))).bind fun u => ?_
    have hok : Tallies (ev.MissesIn env (l.subscripts ++ r.subscripts)) (Term.eval st)
        (.ok ((Term.binary op t u).eval st)) (some (.binary op t u)) := .ok _
    cases op <;> first | exact hok | exact .fail _
  | neg e ih =>
    rw [term, Option.map_eq_bind]
    exact ih.bind fun t => .ok (Term.neg t)

end data

end Evaluator

/-! ## From runs to traces -/

section complete

variable {α : Type} [Element α]

theorem perform_scope (acts : List Action) (st : Store α) :
    perform (scope st.layout acts) st = (perform acts st).take st.length := by
  simp [scope, Action.perform, Store.length_layout]

/-- A trace of `callee` for all that runs to its end by `exec`. -/
def Callee.Covers (callee : Callee) (exec : Env → Block → Exec α Unit) : Prop :=
  ∀ (env : Env) (b : Block) (st st' : Store α), (exec env b).run.run st = (.ok (), st') →
    ∃ acts, callee env st.layout b = some acts ∧ st' = perform acts st

variable {ev : Evaluator} {c : Catalog} {callee : Callee} {exec : Env → Block → Exec α Unit}
  {env : Env} {st st' : Store α}

/-- Rounds that run to their ends have traces, all from the layout they leave unchanged. -/
theorem traceRounds_of_countUp {f : Word → Exec α Unit} (round : Nat → Option (List Action))
    {lay : Layout} (hclosed : ∀ {k acts}, round k = some acts → lay.after acts = lay)
    (hround : ∀ {k st st'}, st.layout = lay → (f (Int64.ofNat k)).run.run st = (.ok (), st') →
      ∃ acts, round k = some acts ∧ st' = perform acts st) {n k : Nat} (hlay : st.layout = lay)
    (h : (countUp f n k).run.run st = (.ok (), st')) :
    ∃ acts, traceRounds round n k = some acts ∧ st' = perform acts st := by
  induction n generalizing k st with
  | zero => exact ⟨[], rfl, (run_pure_eq_ok.1 h).2.symm⟩
  | succ n ih =>
    obtain ⟨_, st₁, h₁, h₂⟩ := run_bind_eq_ok.1 h
    obtain ⟨acts, hacts, rfl⟩ := hround hlay h₁
    obtain ⟨acts', hacts', rfl⟩ :=
      ih (by rw [layout_perform, hlay, hclosed hacts]) h₂
    exact ⟨acts ++ acts', by simp [traceRounds, hacts, hacts'], by simp⟩

/-- **A run to the end has a trace.** Stated for a statement whose body, if it has one, has this
property. -/
theorem Stmt.trace_of_exec_of_body (hc : callee.Closed) (hcov : callee.Covers exec) {s : Stmt}
    (hbody : ∀ body, s.body? = some body → ∀ {env : Env} {st st' : Store α},
      (execAll c exec env body).run.run st = (.ok (), st') →
        ∃ acts env', traceAll ev c callee env st.layout body = some (acts, env') ∧
          st' = perform acts st) {env' : Env} (h : (s.exec c exec env).run.run st = (.ok env', st'))
    :
    ∃ acts, s.trace ev c callee env st.layout = some (acts, env') ∧ st' = perform acts st := by
  cases s with
  | loop hd body =>
    simp only [Stmt.exec, run_bind_eq_ok, run_eval_eq_ok, run_pure_eq_ok] at h
    obtain ⟨n, _, ⟨hn, rfl⟩, _, st₂, hcount, rfl, rfl⟩ := h
    -- a round releases what it allocates, so all rounds start in the layout of the first
    obtain ⟨acts, hacts, rfl⟩ := traceRounds_of_countUp
      (fun k => (traceAll ev c callee (env.turn hd k) st.layout body).map (scope st.layout ·.1))
      (by
        intro k acts h
        obtain ⟨⟨a, e⟩, ha, rfl⟩ := Option.map_eq_some_iff.1 h
        exact (scope_traceAll_closes hc ha).after)
      (by
        intro k s s' hlay h
        obtain ⟨s₁, hin, rfl⟩ := run_inScope_eq_ok.1 h
        obtain ⟨acts, e, hacts, rfl⟩ := hbody body rfl hin
        exact ⟨scope s.layout acts, by rw [← hlay, hacts]; rfl, (perform_scope acts s).symm⟩)
      rfl hcount
    exact ⟨acts, by simp only [Stmt.trace, ev.of_index hn, hacts, Option.bind_eq_bind,
      Option.bind_some, Option.pure_def], rfl⟩
  | guard e body =>
    simp only [Stmt.exec, run_bind_eq_ok, run_eval_eq_ok] at h
    obtain ⟨t, _, ⟨ht, rfl⟩, h⟩ := h
    cases t with
    | false =>
      obtain ⟨rfl, rfl⟩ := run_pure_eq_ok.1 h
      exact ⟨[], trace_guard.2 (.inl ⟨(ev.condition_tallies e).eq_some ht, rfl⟩), rfl⟩
    | true =>
      simp only [if_true, run_bind_eq_ok, run_inScope_eq_ok, run_pure_eq_ok] at h
      obtain ⟨_, _, ⟨s₁, hin, rfl⟩, rfl, rfl⟩ := h
      obtain ⟨acts, e', hacts, rfl⟩ := hbody body rfl hin
      exact ⟨_, trace_guard.2 (.inr ⟨(ev.condition_tallies e).eq_some ht, acts, e', hacts, rfl⟩),
        (perform_scope acts st).symm⟩
  | store u b idx rhs =>
    simp only [Stmt.exec, run_bind_eq_ok, run_eval_eq_ok, run_get_eq_ok] at h
    obtain ⟨_, _, ⟨rfl, rfl⟩, a, _, ⟨ha, rfl⟩, _, _, ⟨rfl, rfl⟩, p, _, ⟨hp, rfl⟩, h⟩ := h
    obtain ⟨t, ht, rfl⟩ := (ev.term_tallies _ rhs).found ha
    have hstore : env = env' ∧ Action.perform st (.store u p t) = st' := by
      cases u <;>
      · simp only [run_bind_eq_ok, run_modify_eq_ok, run_pure_eq_ok] at h
        obtain ⟨_, _, rfl, rfl, rfl⟩ := h
        exact ⟨rfl, rfl⟩
    obtain ⟨rfl, rfl⟩ := hstore
    have hplace := (ev.place_tallies _ b idx).eq_some hp
    exact ⟨[.store u p t], trace_store.2 ⟨t, p, ht, hplace, rfl⟩, rfl⟩
  | alloc d =>
    simp only [Stmt.exec, run_bind_eq_ok, run_eval_eq_ok, run_get_eq_ok, run_modify_eq_ok,
      run_pure_eq_ok] at h
    obtain ⟨shape, _, ⟨hshape, rfl⟩, t, _, ⟨ht, rfl⟩, _, _, ⟨rfl, rfl⟩, _, _, rfl, rfl, rfl⟩ := h
    obtain ⟨size, hsize, ht⟩ := Option.bind_eq_some_iff.1 (noOverflow_eq_ok.1 ht)
    cases ht
    have hextents := (ev.extents_tallies _ (List.Subset.refl _)).eq_some hshape
    refine ⟨[.alloc d.ty shape size], trace_alloc.2 ⟨shape, size, hextents, hsize, ?_⟩, rfl⟩
    rw [Store.length_layout]
  | call name args =>
    simp only [Stmt.exec, run_bind_eq_ok, run_eval_eq_ok] at h
    obtain ⟨⟨inner, body⟩, _, ⟨henter, rfl⟩, h⟩ := h
    simp only [run_pure_eq_ok] at h
    obtain ⟨_, _, hcall, rfl, rfl⟩ := h
    obtain ⟨acts, hacts, rfl⟩ := hcov _ _ _ _ hcall
    obtain ⟨t, ht, hlen, hinner, rfl⟩ := Catalog.enter_eq_ok.1 henter
    have hparams := (ev.enter_tallies _ (List.Subset.refl _)).eq_some hinner
    exact ⟨acts, trace_call.2 ⟨t, inner, acts, ht, hlen, hparams, hacts, rfl⟩, rfl⟩

theorem Stmt.traceAll_of_execAll (ev : Evaluator) (hc : callee.Closed) (hcov : callee.Covers exec)
    (b : Block) (h : (execAll c exec env b).run.run st = (.ok (), st')) :
    ∃ acts env', traceAll ev c callee env st.layout b = some (acts, env') ∧
      st' = perform acts st := by
  induction b using Block.induction generalizing env st st' with
  | nil =>
    obtain ⟨-, rfl⟩ := run_pure_eq_ok.1 h
    exact ⟨[], env, traceAll_nil.2 rfl, rfl⟩
  | cons s rest ihs ihrest =>
    simp only [execAll, run_bind_eq_ok] at h
    obtain ⟨env₁, st₁, hs, hrest⟩ := h
    obtain ⟨acts, hacts, rfl⟩ := trace_of_exec_of_body hc hcov ihs hs
    obtain ⟨acts', env', hacts', rfl⟩ := ihrest hrest
    rw [layout_perform] at hacts'
    exact ⟨acts ++ acts', env', traceAll_cons.2 ⟨acts, env₁, acts', env', hacts, hacts', rfl⟩,
      by simp⟩

theorem Stmt.trace_of_exec (ev : Evaluator) (hc : callee.Closed) (hcov : callee.Covers exec)
    {s : Stmt} {env' : Env} (h : (s.exec c exec env).run.run st = (.ok env', st')) :
    ∃ acts, s.trace ev c callee env st.layout = some (acts, env') ∧ st' = perform acts st :=
  trace_of_exec_of_body hc hcov (fun body _ => traceAll_of_execAll ev hc hcov body) h

theorem Block.trace_covers (c : Catalog) (depth : Nat) (ev : Evaluator) :
    Callee.Covers (Block.trace c depth ev) (Block.exec c depth : Env → Block → Exec α Unit) := by
  induction depth generalizing ev with
  | zero =>
    intro env b st st' h
    obtain ⟨s, hs, rfl⟩ := run_inScope_eq_ok.1 h
    obtain ⟨acts, env', hacts, rfl⟩ := traceAll_of_execAll ev
      Callee.closed_none (fun _ _ _ _ h => absurd h run_throw_ne_ok) b hs
    exact ⟨_, by rw [Block.trace, hacts]; rfl, (perform_scope acts st).symm⟩
  | succ depth ih =>
    intro env b st st' h
    obtain ⟨s, hs, rfl⟩ := run_inScope_eq_ok.1 h
    obtain ⟨acts, env', hacts, rfl⟩ :=
      traceAll_of_execAll ev (Block.trace_closed c depth .checked) (ih .checked) b hs
    exact ⟨_, by rw [Block.trace, hacts]; rfl, (perform_scope acts st).symm⟩

end complete

end LoopNest
