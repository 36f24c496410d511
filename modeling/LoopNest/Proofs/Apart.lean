import LoopNest.Proofs.Contract.Parts
import LoopNest.Proofs.Contract.Reword
import LoopNest.Proofs.Enlarge
import LoopNest.Proofs.Reached
import LoopNest.Proofs.Trace.Parted

/-!
# Taking a buffer apart

`Proc.unrollBuffer` gives a register buffer up for as many buffers as it has indices in one dimension.
Each access of the buffer and each window into it has a constant there, which selects the part; the
other accesses stay.

* `Parts.rewording` — the rest of the block in these words. In environments that have the parts where
  they had the buffer (`Env.Parted`) it means the same (`Parts.rewording_sound`).
* `Parts.turns` — the step makes exactly this of the rest of the block: no read, write or window is
  left out, at any depth.
* `Proc.TakenApart.trace_parts` — from the allocation on, the block with the parts does the same to the
  tensors from before.
* `Stmt.WellScopedAll.not_refers` — what is not in scope is not referred to, so the old name is gone.
* `Proc.run_unrollBuffer` — kernels keep their results, and nothing outside the scope of the allocation
  changes.
-/

namespace LoopNest

open Exec Stmt Block Evaluator Scope

variable {e : Expr} {x name : String} {idx es : List Expr} {s : Stmt} {ρ : Nat → Seat}

/-! ## The words for a buffer that is taken apart -/

namespace Parts

variable {ps : Parts}

/-- Parts in the place of the buffer, where an access or a window selects one. -/
def rewording (ps : Parts) : Rewording where
  index := id
  access b idx b' idx' := (b ≠ ps.buf ∧ b' = b ∧ idx' = idx) ∨
    (b = ps.buf ∧ ∃ e, idx[ps.dim]? = some e ∧ ps.select e = .ok b' ∧ idx' = idx.eraseIdx ps.dim)
  window w w' := (w.buf ≠ ps.buf ∧ w' = w) ∨
    (w.buf = ps.buf ∧ ∃ e, w.dims[ps.dim]? = some (.point e) ∧ ps.select e = .ok w'.buf ∧
      w'.dims = w.dims.eraseIdx ps.dim)
  name := id
  binds x := x ≠ ps.buf ∧ x ∉ ps.names

/-- The value of the index that selects a part. -/
theorem part_of_select {ev : Evaluator} {env : Env} {n : Word} (h : ps.select e = .ok name)
    (hn : ev.eval env e = some n) : ps.names[n.toInt.toNat]? = some name := by
  obtain ⟨k, hk, hname⟩ := of_select h
  rwa [Expr.wide?_of_constant? hk (ev.to_wide hn)]

end Parts

/-- In the first environment the buffer stands for the whole tensor `i` of the given shape, and in
the second one the parts stand for the tensors from `first` on. All else is the same, with tensors
in their seats. -/
structure Env.Parted (ps : Parts) (i first : Nat) (shape : List Nat) (ρ : Nat → Seat)
    (env env' : Env) : Prop extends Env.SeatsBut [ps.buf] ρ env env' where
  whole : env.view? ps.buf = some (.whole i ps.buf shape)
  part : ∀ {k : Nat} {name}, ps.names[k]? = some name →
    env'.view? name = some (.whole (first + k) name (shape.eraseIdx ps.dim))

theorem Env.Parted.bind {ps : Parts} {i first : Nat} {shape : List Nat} {env env' : Env}
    (h : env.Parted ps i first shape ρ env') (hx : x ≠ ps.buf ∧ x ∉ ps.names) {b b' : Binding}
    (hseats : Env.SeatsBut [ps.buf] ρ (env.bind x b) (env'.bind x b')) :
    Env.Parted ps i first shape ρ (env.bind x b) (env'.bind x b') where
  toSeatsBut := hseats
  whole := by rw [view?_bind_of_ne hx.1, h.whole]
  part {k name} hname := by
    have hne : x ≠ name := fun heq => hx.2 (heq ▸ List.mem_of_getElem? hname)
    rw [view?_bind_of_ne hne, h.part hname]

/-- **The parts mean what the buffer meant.** -/
theorem Parts.rewording_sound {ps : Parts} {ev : Evaluator} {i first : Nat} {shape : List Nat}
    (hρ : ρ i = .apart shape ps.dim first) :
    ps.rewording.Sound (.seats ρ) ev (Env.Parted ps i first shape ρ) where
  keeps h := .of_value? h.value
  operands _ _ _ := rfl
  value lay lay' h hx := (Simulation.seats ρ).term_var (h.value hx) lay lay'
  place {env env' lay lay' b b' idx idx' p} hseats h hb hp := by
    have hkeep : ev.Keeps env env' id := .of_value? h.value
    obtain ⟨hne, rfl, rfl⟩ | ⟨rfl, e, he, hselect, rfl⟩ := hb
    · simpa using (Simulation.seats ρ).place hkeep (h.view (by simpa using hne)) hseats hp
    · obtain ⟨v, ns, hv, hns, hp⟩ := place_eq_some.1 hp
      have hns' : ev.indices env' idx = some ns := by simpa using hkeep.indices hns
      obtain rfl := Option.mem_unique h.whole hv
      obtain ⟨hget, herase⟩ := forall₂_eraseIdx (indices_eq_some.1 hns') ps.dim
      obtain ⟨k, hk, heval⟩ := hget e he
      have hholds : ∀ s, lay[i]? = some s → (Seat.apart shape ps.dim first).Holds lay' s :=
        fun s hs => hρ ▸ hseats.slot hs
      obtain ⟨hnumber, q, hq, hplace⟩ := Seat.Holds.place_part hholds hk hp b'
      refine ⟨q, ?_, place_eq_some.2 ⟨_, _, h.part (part_of_select hselect heval),
        indices_eq_some.2 herase, hplace⟩⟩
      change (ρ p.1).Lies p.2 q
      rwa [hnumber, hρ]
  view {env env' a a' v} h ha hv := by
    have hkeep : ev.Keeps env env' id := .of_value? h.value
    obtain ⟨hne, rfl⟩ | ⟨hbuf, e, he, hselect, hdims'⟩ := ha
    · simpa using (Simulation.seats ρ).window hkeep (h.view (by simpa using hne)) hv
    · obtain ⟨u, cuts, dims, hu, hcuts, hdims, rfl⟩ := window_eq_some.1 hv
      have hcuts' : ev.cuts env' a.dims = some cuts := by simpa using hkeep.cuts hcuts
      rw [hbuf] at hu
      obtain rfl := Option.mem_unique h.whole hu
      obtain ⟨hget, herase⟩ := forall₂_eraseIdx (cuts_eq_some.1 hcuts') ps.dim
      obtain ⟨c, hc, hcut⟩ := hget _ he
      obtain ⟨k, hk, rfl⟩ := cut_point.1 hcut
      obtain ⟨hfixed, hcut'⟩ := View.Narrows.whole hc hdims
      refine ⟨_, window_eq_some.2 ⟨_, _, _, h.part (part_of_select hselect hk), ?_, hcut', rfl⟩, ?_⟩
      · rw [hdims']
        exact cuts_eq_some.2 herase
      · change (ρ i).Shows _ _
        rw [hρ]
        exact ⟨k, hfixed, rfl, rfl⟩
  bind_index n hx h := h.bind hx (h.toSeatsBut.bind_index _ n)
  bind_whole shape' hx hseats h :=
    h.bind hx (h.toSeatsBut.bind_buffer _ (hseats.shows_next _ _ shape'))
  omits hs := hs.elim

/-! ## What the step makes of the rest of the block -/

namespace Parts

variable {ps : Parts} {sc : Scope} {d : Decl}

theorem expr_of_checkCondition (h : sc.checkCondition e = []) : ps.expr e = .ok e := by
  induction e with
  | binary op l r ihl ihr =>
    obtain ⟨_, _, heq, hl, hr⟩ | ⟨_, _, _, heq, -, hl, hr⟩ := of_checkCondition h
    · cases heq
      rw [expr, ihl hl, ihr hr]
      rfl
    · cases heq
      rw [expr, expr_of_checkIndex hl, expr_of_checkIndex hr]
      rfl
  | _ => cases h

theorem exprsExcept_eq_ok (h : ∀ e ∈ es, ps.expr e = .ok e) (dim : Nat) :
    ps.exprsExcept dim es = .ok (es.eraseIdx dim) := by
  induction es generalizing dim with
  | nil => cases dim <;> rfl
  | cons e es ih =>
    obtain ⟨he, hes⟩ := List.forall_mem_cons.1 h
    cases dim with
    | zero => exact exprs_eq_ok hes
    | succ dim =>
      rw [exprsExcept, he, ih hes]
      rfl

theorem exprs_append (h : ∀ e ∈ es, ps.expr e = .ok e) {es' : List Expr}
    (hes' : ps.exprs (es ++ [e]) = .ok es') : ∃ e', ps.expr e = .ok e' ∧ es' = es ++ [e'] := by
  induction es generalizing es' with
  | nil =>
    obtain ⟨e', he', hes'⟩ := except_bind_eq_ok.1 hes'
    cases hes'
    exact ⟨e', he', rfl⟩
  | cons x es ih =>
    obtain ⟨hx, hes⟩ := List.forall_mem_cons.1 h
    obtain ⟨x', hx', hes'⟩ := except_bind_eq_ok.1 hes'
    obtain ⟨rest, hrest, hes'⟩ := except_bind_eq_ok.1 hes'
    cases hes'
    obtain rfl := Except.ok.inj (hx.symm.trans hx')
    obtain ⟨e', he', rfl⟩ := ih hes hrest
    exact ⟨e', he', rfl⟩

section

variable (hd : sc.buffer? ps.buf = some d) (hdim : ps.dim < d.rank)
include hd hdim

/-- A well-scoped access of the buffer has the dimension. -/
theorem exists_index {b : String} (h : sc.checkAccess b idx = []) (hb : b = ps.buf) :
    ∃ e, idx[ps.dim]? = some e := by
  obtain ⟨⟨d', hd', hrank⟩, -⟩ := Scope.checkAccess_eq_nil.1 h
  rw [hb, hd] at hd'
  obtain rfl := Option.some.inj hd'
  exact ⟨_, List.getElem?_eq_getElem (hrank ▸ hdim)⟩

theorem rewording_access {b b' : String} {idx' : List Expr} (hcheck : sc.checkAccess b idx = [])
    (h : ps.access b idx = .ok (b', idx')) : ps.rewording.access b idx b' idx' := by
  unfold access at h
  split at h
  next hne =>
    cases h
    exact .inl ⟨hne, rfl, rfl⟩
  next hb =>
    rw [not_not] at hb
    obtain ⟨e, he⟩ := exists_index hd hdim hcheck hb
    simp only [he] at h
    obtain ⟨name, hname, h⟩ := except_bind_eq_ok.1 h
    cases h
    exact .inr ⟨hb, e, he, hname, rfl⟩

theorem rewording_data {e' : Expr} (hcheck : sc.checkData e = []) (h : ps.expr e = .ok e') :
    ps.rewording.Data e e' := by
  induction e generalizing e' with
  | var v =>
    cases h
    exact .var v
  | int n =>
    cases h
    exact .int n
  | float x =>
    cases h
    exact .float x
  | read b idx =>
    have hidx : ∀ e ∈ idx, ps.expr e = .ok e := fun e he =>
      expr_of_checkIndex ((Scope.checkAccess_eq_nil.1 hcheck).2 e he)
    rw [expr] at h
    by_cases hb : b = ps.buf
    · obtain ⟨index, hindex⟩ := exists_index hd hdim hcheck hb
      simp only [if_pos hb, hindex] at h
      obtain ⟨part, hpart, h⟩ := except_bind_eq_ok.1 h
      rw [exprsExcept_eq_ok hidx] at h
      cases h
      exact .read (.inr ⟨hb, index, hindex, hpart, rfl⟩)
    · simp only [if_neg hb, exprs_eq_ok hidx] at h
      cases h
      exact .read (.inl ⟨hb, rfl, rfl⟩)
  | binary op l r ihl ihr =>
    obtain ⟨-, hl, hr⟩ := checkData_binary.1 hcheck
    obtain ⟨l', hl', h⟩ := except_bind_eq_ok.1 h
    obtain ⟨r', hr', h⟩ := except_bind_eq_ok.1 h
    cases h
    exact .binary (ihl hl hl') (ihr hr hr')
  | neg e ih =>
    obtain ⟨e₁, he₁, h⟩ := except_bind_eq_ok.1 h
    cases h
    exact .neg (ih hcheck he₁)

end

theorem rewording_windows {args args' : List Window} (hargs : ∀ w ∈ args, ps.Admits w)
    (h : args.mapM ps.window = .ok args') : List.Forall₂ ps.rewording.window args args' := by
  refine ((List.forall₂_and_left _ _).2 ⟨hargs, mapM_eq_ok h⟩).imp fun w w' ⟨hw, hw'⟩ => ?_
  unfold window at hw'
  split at hw'
  next hne =>
    cases hw'
    exact .inl ⟨hne, rfl⟩
  next hbuf =>
    rw [not_not] at hbuf
    split at hw'
    next hnone => exact absurd (hw.dim hbuf) (Nat.not_lt.2 (List.getElem?_eq_none_iff.1 hnone))
    · cases hw'
    next index hindex =>
      obtain ⟨name, hname, hw'⟩ := except_bind_eq_ok.1 hw'
      cases hw'
      exact .inr ⟨hbuf, index, hindex, hname, rfl⟩

/-- A statement whose expressions read nothing, and that is no store and no call, stays. -/
theorem here_eq_ok (h : ∀ e ∈ s.exprs, ps.expr e = .ok e)
    (hs : (∃ hd body, s = .loop hd body) ∨ (∃ c body, s = .guard c body) ∨ ∃ d, s = .alloc d) :
    ps.here s = .ok s := by
  have hexprs := exprs_eq_ok h
  obtain ⟨hd, body, rfl⟩ | ⟨c, body, rfl⟩ | ⟨d, rfl⟩ := hs <;>
  · rw [here, hexprs]
    rfl

theorem rewording_store (hd : sc.buffer? ps.buf = some d) (hdim : ps.dim < d.rank) {u : Update}
    {b : String} {rhs : Expr} (haccess : sc.checkAccess b idx = []) (hdata : sc.checkData rhs = [])
    (h : ps.here (.store u b idx rhs) = .ok s) :
    ∃ b' idx' rhs', s = .store u b' idx' rhs' ∧ ps.rewording.access b idx b' idx' ∧
      ps.rewording.Data rhs rhs' := by
  unfold here at h
  obtain ⟨es, hes, h⟩ := except_bind_eq_ok.1 h
  obtain ⟨rhs', hrhs', rfl⟩ := exprs_append (fun e he =>
    expr_of_checkIndex ((Scope.checkAccess_eq_nil.1 haccess).2 e he)) hes
  have hrefill : (Stmt.store u b idx rhs).withExprs (idx ++ [rhs']) = .store u b idx rhs' := by
    simp [withExprs]
  rw [hrefill] at h
  obtain ⟨⟨b', idx'⟩, hb', h⟩ := except_bind_eq_ok.1 h
  cases h
  exact ⟨b', idx', rhs', rfl, rewording_access hd hdim haccess hb',
    rewording_data hd hdim hdata hrhs'⟩

/-- **The rest of the block is reworded.** -/
theorem turns {templates : Templates} {b b' : Block} (h : ps.stmts b = .ok b')
    (hscope : WellScopedAll templates sc b) (hd : sc.buffer? ps.buf = some d)
    (hdim : ps.dim < d.rank) (hb : ∀ x ∈ b.binders, x ≠ ps.buf ∧ x ∉ ps.names) :
    ps.rewording.Turns b b' := by
  have hadmits := hscope.admits hd hdim fun x hx => (hb x (mem_binders_of_allocated hx)).1
  induction b using Block.induction generalizing b' sc with
  | nil =>
    cases h
    exact .nil
  | cons s rest ihs ihrest =>
    rw [stmts] at h
    obtain ⟨s', hs', h⟩ := except_bind_eq_ok.1 h
    obtain ⟨rest', hrest', h⟩ := except_bind_eq_ok.1 h
    cases h
    obtain ⟨hs, hscope⟩ := hscope
    rw [binders_cons, List.forall_mem_append] at hb
    obtain ⟨hhere, hinside, hlater⟩ := forall_nested_cons.1 hadmits
    have hrest : ps.rewording.Turns rest rest' := by
      refine ihrest hrest' hscope ?_ hb.2 hlater
      cases s with
      | alloc e =>
        have hne : e.name ≠ ps.buf := (hb.1 e.name (.head _)).1
        rw [Scope.after, buffer?_addBuffer, if_neg hne, hd]
      | _ => exact hd
    -- bounds, conditions and shapes read no buffer, so only stores and calls are reworded
    cases s with
    | loop hd' body =>
      obtain ⟨hvar, hbody⟩ := List.forall_mem_cons.1 hb.1
      have hsame : ps.here (.loop hd' []) = .ok (.loop hd' []) := by
        refine here_eq_ok (fun e he => ?_) (.inl ⟨hd', [], rfl⟩)
        rw [List.mem_singleton.1 he]
        exact expr_of_checkIndex (checkStmt_loop.1 hs.1).1
      obtain ⟨s₁, hs₁, hs'⟩ := except_bind_eq_ok.1 hs'
      obtain rfl := Except.ok.inj (hsame.symm.trans hs₁)
      obtain ⟨body', hbody', hs'⟩ := except_bind_eq_ok.1 hs'
      cases hs'
      exact .loop hvar (ihs body rfl hbody' hs.2 hd hbody (hinside body rfl)) hrest
    | guard c body =>
      have hsame : ps.here (.guard c []) = .ok (.guard c []) := by
        refine here_eq_ok (fun e he => ?_) (.inr (.inl ⟨c, [], rfl⟩))
        rw [List.mem_singleton.1 he]
        exact expr_of_checkCondition hs.1
      obtain ⟨s₁, hs₁, hs'⟩ := except_bind_eq_ok.1 hs'
      obtain rfl := Except.ok.inj (hsame.symm.trans hs₁)
      obtain ⟨body', hbody', hs'⟩ := except_bind_eq_ok.1 hs'
      cases hs'
      exact .guard (ihs body rfl hbody' hs.2 hd hb.1 (hinside body rfl)) hrest
    | store u buf idx rhs =>
      obtain ⟨haccess, hdata⟩ := List.append_eq_nil_iff.1 hs
      obtain ⟨b', idx', rhs', rfl, hb', hrhs'⟩ := rewording_store hd hdim haccess hdata hs'
      exact .store hb' hrhs' hrest
    | alloc e =>
      have hsame : ps.here (.alloc e) = .ok (.alloc e) :=
        here_eq_ok (fun x hx => expr_of_checkIndex ((checkStmt_alloc.1 hs).2.2 x hx))
          (.inr (.inr ⟨e, rfl⟩))
      obtain rfl := Except.ok.inj (hsame.symm.trans hs')
      have hbinds : ps.rewording.binds e.name := hb.1 e.name (.head _)
      have hturns := Rewording.Turns.alloc hbinds hrest
      have hshape : e.shape.map ps.rewording.index = e.shape := List.map_id _
      rwa [hshape] at hturns
    | call t args =>
      obtain ⟨args', hargs', rfl⟩ := of_here hs' hhere
      exact .call (rewording_windows hhere hargs') hrest

end Parts

/-! ## Allocating the parts -/

section alloc

variable {ev : Evaluator} {env : Env} {d : Decl} {dim : Nat} {shape : List Nat} {size : Nat}

/-- The parts are allocated one after the other. -/
theorem Decl.traceAll_parts (c : Catalog) (callee : Callee) (lay : Layout)
    (hshape : ev.extents env (d.shape.eraseIdx dim) = some shape) {names : List String}
    (hsize : names ≠ [] → Tensor.size? shape = some size) (hnew : ∀ x ∈ names, env.lookup x = none)
    (hnodup : names.Nodup) :
    ∃ e, traceAll ev c callee env lay (d.parts dim names) =
        some (List.replicate names.length (.alloc d.ty shape size), e) ∧
      (∀ x ∉ names, e.lookup x = env.lookup x) ∧
      ∀ k name, names[k]? = some name → e.view? name = some (.whole (lay.length + k) name shape) := by
  induction names generalizing env lay with
  | nil => exact ⟨env, traceAll_nil.2 rfl, fun _ _ => rfl, nofun⟩
  | cons name names ih =>
    obtain ⟨hname, hnew⟩ := List.forall_mem_cons.1 hnew
    obtain ⟨hnot, hnodup⟩ := List.nodup_cons.1 hnodup
    let env₁ := env.bind name (.buffer (.whole lay.length name shape))
    have hkeeps : ev.Keeps env env₁ id := .of_value? fun {x n} hx => by
      have hne : x ≠ name := fun heq => by simp [heq, Env.value?, hname] at hx
      rw [Env.value?_bind, if_neg hne, hx]
    have hshape₁ : ev.extents env₁ (d.shape.eraseIdx dim) = some shape := by
      simpa using hkeeps.extents hshape
    have hnew₁ : ∀ x ∈ names, env₁.lookup x = none := by
      intro x hx
      have hne : x ≠ name := fun heq => hnot (heq ▸ hx)
      rw [Env.lookup_bind, if_neg hne, hnew x hx]
    have hsize := hsize (List.cons_ne_nil _ _)
    obtain ⟨e, he, hlookup, hview⟩ := ih _ hshape₁ (fun _ => hsize) hnew₁ hnodup
    refine ⟨e, ?_, fun x hx => ?_, fun k x hx => ?_⟩
    · exact traceAll_cons.2 ⟨[.alloc d.ty shape size], env₁, _, e,
        trace_alloc.2 ⟨shape, size, hshape, hsize, rfl⟩, he, rfl⟩
    · obtain ⟨hne, hx⟩ := not_or.1 (mt List.mem_cons.2 hx)
      rw [hlookup x hx, Env.lookup_bind, if_neg hne]
    · cases k with
      | zero =>
        cases hx
        rw [Env.view?_eq_some, hlookup name hnot, Env.lookup_bind, if_pos rfl]
        rfl
      | succ k =>
        have hlen : List.length (lay.after [.alloc d.ty shape size]) = lay.length + 1 := by
          simp [Action.relayout]
        rw [hview k x (List.getElem?_cons_succ.symm.trans hx), hlen, Nat.add_assoc, Nat.add_comm 1 k]

theorem perform_replicate_alloc {α : Type} [Element α] (ty : Scalar) (shape : List Nat)
    (size m : Nat) (st : Store α) :
    perform (List.replicate m (.alloc ty shape size)) st =
      st ++ List.replicate m ⟨ty, shape, Array.replicate size Element.undefined⟩ := by
  induction m generalizing st with
  | zero => simp
  | succ m ih => simp [List.replicate_succ, Action.perform, ih]

end alloc

/-! ## Kernels -/

theorem Decl.nodup_partNames (d : Decl) (n : Nat) : (d.partNames n).Nodup := by
  refine List.nodup_range.map fun i j hij => ?_
  have hlist := congrArg String.toList hij
  simp only [String.toList_append, List.append_cancel_left_eq] at hlist
  exact natText_injective (String.toList_injective hlist)

namespace Proc.TakenApart

variable {α : Type} [Element α] {p q : Proc} {alloc : String} {dim : Nat} {c : Catalog}
  {args : Args α} {templates : Templates}

variable (a : p.TakenApart alloc dim q)
variable {sc : Scope} {shape : List Nat}

include a

/-- In the scope of the allocation nothing is bound under its name or those of the parts. -/
theorem binders_rest (hscope : WellScopedAll templates sc (.alloc a.d :: a.rest)) :
    ∀ x ∈ a.rest.binders, x ≠ a.d.name ∧ x ∉ a.names := by
  intro x hx
  have hhidden : (sc.addBuffer a.d).isVisible x = false := hscope.2.isVisible_eq_false hx
  refine ⟨(isVisible_eq_false_of_addBuffer.1 hhidden).1, fun hmem => a.fresh x hmem ?_⟩
  refine List.mem_append_right _ (a.recast.mem_binders ?_)
  rw [binders_cons]
  exact List.mem_append_right _ hx

theorem turns (hscope : WellScopedAll templates sc (.alloc a.d :: a.rest)) :
    a.parts.rewording.Turns a.rest a.rest' := by
  have hbuf : (sc.addBuffer a.d).buffer? a.d.name = some a.d := by
    rw [buffer?_addBuffer, if_pos rfl]
  exact Parts.turns a.turned hscope.2 hbuf a.dim_lt (a.binders_rest hscope)

/-- The extents that the allocation has in a run. -/
theorem shape_of_extents {ev : Evaluator} {env : Env} (h : ev.extents env a.d.shape = some shape) :
    shape[dim]? = some a.count.toInt.toNat ∧
      ev.extents env (a.d.shape.eraseIdx dim) = some (shape.eraseIdx dim) := by
  obtain ⟨hget, herase⟩ := forall₂_eraseIdx (extents_eq_some.1 h) dim
  obtain ⟨m, hm, n, hn, -, rfl⟩ := hget a.extent a.found
  rw [Expr.wide?_of_constant? a.constant (ev.to_wide hn)] at hm
  exact ⟨hm, extents_eq_some.2 herase⟩

/-- The parts stand for what the buffer stood for. -/
theorem parted {env e : Env} {lay : Layout} (hlt : env.ViewsBelow lay.length)
    (hnew : ∀ x ∈ a.names, env.lookup x = none)
    (hlookup : ∀ x ∉ a.names, e.lookup x = env.lookup x)
    (hview : ∀ k name, a.names[k]? = some name →
      e.view? name = some (.whole (lay.length + k) name (shape.eraseIdx dim))) (m : Nat) :
    (env.bind a.d.name (.buffer (.whole lay.length a.d.name shape))).Parted a.parts lay.length
      lay.length shape
      (Seat.put .whole lay.length 1 (lay.length + m) (.apart shape dim lay.length)) e where
  value {x n} hx := by
    have hx := (Env.value?_bind_buffer.1 hx).2
    have hnot : x ∉ a.names := fun hmem => by simp [Env.value?, hnew x hmem] at hx
    rw [Env.value?, hlookup x hnot]
    exact hx
  view {x v} hne hx := by
    have hne : x ≠ a.d.name := List.ne_of_not_mem_cons hne
    rw [Env.view?_bind, if_neg hne] at hx
    have hnot : x ∉ a.names := fun hmem => by simp [Env.view?, hnew x hmem] at hx
    refine ⟨v, ?_, ?_⟩
    · rw [Env.view?, hlookup x hnot]
      exact hx
    · rw [Seat.put_of_lt (hlt x v hx)]
      exact Seat.shows_whole rfl rfl
  whole := by
    rw [Env.view?_bind]
    exact if_pos rfl
  part {k name} hname := hview k name hname

/-- **Wherever the run comes to the allocation, the block with the parts does the same** to the
tensors from before. -/
theorem trace_parts (hvalid : p.problems templates = []) {env e : Env} {st : Store α}
    {acts : List Action} (hreach : p.Reaches c args a.path env st)
    (ht : c.traceAll env st.layout (.alloc a.d :: a.rest) = some (acts, e)) :
    ∃ acts' e', c.traceAll env st.layout (a.d.parts dim a.names ++ a.rest') = some (acts', e') ∧
      (perform acts' st).take st.length = (perform acts st).take st.length := by
  obtain ⟨sc, seen, _, hfrom, hscope, hfits, htidy⟩ := hreach.fits hvalid
  obtain rfl := Option.mem_unique a.recast.from? hfrom
  obtain ⟨a₁, e₁, a₂, e₂, hs, hrest, ⟨⟩⟩ := traceAll_cons.1 ht
  obtain ⟨shape, size, hshape, hsize, ⟨⟩⟩ := trace_alloc.1 hs
  obtain ⟨hm, hshape'⟩ := a.shape_of_extents hshape
  have hcount : a.names.length = a.count.toInt.toNat := by simp [names, Decl.partNames]
  generalize a.count.toInt.toNat = m at hm hcount
  obtain ⟨part, hpart⟩ : ∃ part, 0 < m → Tensor.size? (shape.eraseIdx dim) = some part := by
    by_cases hpos : 0 < m
    · obtain ⟨part, hpart⟩ := Tensor.size?_eraseIdx hm hpos hsize
      exact ⟨part, fun _ => hpart⟩
    · exact ⟨0, fun h => absurd h hpos⟩
  have hnew : ∀ x ∈ a.names, env.lookup x = none := fun x hx =>
    hreach.lookup_eq_none (a.fresh x hx)
  obtain ⟨e', he', hlookup, hview⟩ := Decl.traceAll_parts c c.calls st.layout hshape'
    (fun hne => hpart (hcount ▸ List.length_pos_iff.2 hne)) hnew (a.d.nodup_partNames _)
  rw [hcount] at he'
  -- both runs in the stores behind the allocations
  let blank (shape : List Nat) (size : Nat) : Tensor α :=
    ⟨a.d.ty, shape, Array.replicate size Element.undefined⟩
  have hst : perform [.alloc a.d.ty shape size] st = st ++ [blank shape size] := rfl
  have hst' : perform (List.replicate m (.alloc a.d.ty (shape.eraseIdx dim) part)) st =
      st ++ List.replicate m (blank (shape.eraseIdx dim) part) := perform_replicate_alloc ..
  have hlay : Store.layout (st ++ [blank shape size]) = st.layout ++ [⟨a.d.ty, shape, size⟩] := by
    simp [Store.layout, Tensor.slot, blank]
  have hlay' : Store.layout (st ++ List.replicate m (blank (shape.eraseIdx dim) part)) =
      st.layout ++ List.replicate m ⟨a.d.ty, shape.eraseIdx dim, part⟩ := by
    simp [Store.layout, Tensor.slot, blank]
  let ρ := Seat.put .whole st.length 1 (st.length + m) (.apart shape dim st.length)
  have hseats : Seats ρ (Store.layout (st ++ [blank shape size]))
      (Store.layout (st ++ List.replicate m (blank (shape.eraseIdx dim) part))) := by
    rw [hlay, hlay']
    unfold ρ
    rw [← Store.length_layout]
    exact .parted hm hpart
  have hparted := a.parted htidy.plain.lt hnew hlookup hview m
  rw [← layout_perform, hst] at hrest
  rw [Store.length_layout] at hparted hrest
  have hseated : Seated Eq ρ (st ++ [blank shape size]).length (st ++ [blank shape size])
      (st ++ List.replicate m (blank (shape.eraseIdx dim) part)) := by
    rw [List.length_append]
    exact .parted st hm hpart
  obtain ⟨acts', e'', ht', htake⟩ := (a.turns hscope).take_perform
    (Parts.rewording_sound (Seat.put_of_mem .refl (Nat.lt_succ_self _))) c.calls_closed
    c.calls_seated hseats hseated hparted (fun i => Seat.put_of_lt)
    (by rw [List.length_append]; omega) hrest
  refine ⟨_ ++ acts', e'', traceAll_append.2 ⟨_, e', acts', e'', he', ?_, rfl⟩, ?_⟩
  · rwa [← layout_perform, hst']
  · rw [perform_append, perform_append, hst, hst']
    exact htake

end Proc.TakenApart

/-! ## The old name -/

/-- The statement binds the name, or uses it in an expression or for a buffer. -/
def Stmt.Refers (x : String) (s : Stmt) : Prop :=
  s.binds? = some x ∨ s.mentionsHere x = true ∨ s.touchesHere x = true

theorem Scope.not_refers {sc : Scope} (h : sc.checkStmt none s = []) (hx : sc.isVisible x = false)
    (hbinds : s.binds? ≠ some x) : ¬ s.Refers x := by
  have hnone := buffer?_eq_none hx
  rintro (hbind | hmentions | htouches)
  · exact hbinds hbind
  · obtain ⟨e, he, hv⟩ := List.any_eq_true.1 hmentions
    have hindex := (knows_of_checkStmt h e he).vars x (List.contains_iff_mem.1 hv)
    rw [isVisible_of_isIndex hindex] at hx
    cases hx
  · obtain htouches | hreads := Bool.or_eq_true_iff.1 htouches
    · cases s with
      | store u b idx rhs =>
        obtain rfl := beq_iff_eq.1 htouches
        obtain ⟨⟨d, hd, -⟩, -⟩ := checkAccess_eq_nil.1 (List.append_eq_nil_iff.1 h).1
        rw [hnone] at hd
        cases hd
      | call t args =>
        obtain ⟨w, hw, hbuf⟩ := List.any_eq_true.1 htouches
        obtain rfl := beq_iff_eq.1 hbuf
        obtain ⟨⟨d, hd, -⟩, -⟩ := checkWindow_eq_nil.1
          (List.flatMap_eq_nil_iff.1 (List.append_eq_nil_iff.1 h).1 w hw)
        rw [hnone] at hd
        cases hd
      | loop hd body | guard e body | alloc d => cases htouches
    · obtain ⟨e, he, hb⟩ := List.any_eq_true.1 hreads
      have hsome := (knows_of_checkStmt h e he).buffers x (List.contains_iff_mem.1 hb)
      rw [hnone] at hsome
      cases hsome

/-- Well-scoped statements do not refer to a name that is not in scope, unless they bind it. -/
theorem Stmt.WellScopedAll.not_refers {b : Block} {sc : Scope} (h : WellScopedAll none sc b)
    (hx : sc.isVisible x = false) (hbinds : ∀ s ∈ b.nested, s.binds? ≠ some x) :
    ∀ s ∈ b.nested, ¬ s.Refers x := by
  induction b using Block.induction generalizing sc with
  | nil => exact fun s hs => nomatch hs
  | cons s rest ihs ihrest =>
    obtain ⟨hs, hrest⟩ := h
    obtain ⟨hhere, hinside, hlater⟩ := forall_nested_cons.1 hbinds
    refine Block.forall_nested_cons.2 ⟨Scope.not_refers hs.check hx hhere, fun body hbody => ?_,
      ihrest hrest ?_ hlater⟩
    · refine ihs body hbody (hs.body hbody) ?_ (hinside body hbody)
      cases s with
      | loop hd body' =>
        exact isVisible_eq_false_of_addVar.2 ⟨fun heq => hhere (congrArg some heq.symm), hx⟩
      | _ => exact hx
    · cases s with
      | alloc d =>
        exact isVisible_eq_false_of_addBuffer.2 ⟨fun heq => hhere (congrArg some heq.symm), hx⟩
      | _ => exact hx

/-- The declarations in the block, at any depth. -/
def Block.decls (b : Block) : List Decl := b.nested.filterMap (·.decl?)

theorem Block.decls_cons (s : Stmt) (rest : Block) :
    decls (s :: rest) = s.decl?.toList ++ decls (s.body?.getD []) ++ decls rest := by
  rw [decls, Block.nested, nestedAll, List.filterMap_append]
  cases s <;> rfl

namespace Parts

variable {ps : Parts} {b b' : Block}

theorem decls_of_turns (h : ps.rewording.Turns b b') : b'.decls = b.decls := by
  induction h with
  | nil => rfl
  | loop _ _ _ ihbody ihrest | guard _ _ ihbody ihrest =>
    rw [decls_cons, decls_cons, ihrest]
    exact congrArg (· ++ _) ihbody
  | store _ _ _ ih =>
    rw [decls_cons, decls_cons, ih]
    rfl
  | @alloc d _ _ _ _ ih =>
    rw [decls_cons, decls_cons, ih]
    exact congrArg (· :: _) (congrArg (fun shape => { d with shape }) (List.map_id _))
  | call _ _ ih =>
    rw [decls_cons, decls_cons, ih]
    rfl
  | drop hs => exact hs.elim

theorem binds_of_turns (h : ps.rewording.Turns b b') : ∀ s ∈ b'.nested, s.binds? ≠ some ps.buf := by
  induction h with
  | nil => exact fun s hs => nomatch hs
  | loop hbinds _ _ ihbody ihrest =>
    refine forall_nested_cons.2 ⟨fun heq => hbinds.1 (Option.some.inj heq), ?_, ihrest⟩
    rintro _ ⟨⟩
    exact ihbody
  | guard _ _ ihbody ihrest =>
    refine forall_nested_cons.2 ⟨nofun, ?_, ihrest⟩
    rintro _ ⟨⟩
    exact ihbody
  | store _ _ _ ih => exact forall_nested_cons.2 ⟨nofun, nofun, ih⟩
  | alloc hbinds _ ih =>
    exact forall_nested_cons.2 ⟨fun heq => hbinds.1 (Option.some.inj heq), nofun, ih⟩
  | call _ _ ih => exact forall_nested_cons.2 ⟨nofun, nofun, ih⟩
  | drop hs => exact hs.elim

end Parts

theorem Decl.nestedAll_parts (d : Decl) (dim : Nat) (names : List String) :
    nestedAll (d.parts dim names) = d.parts dim names := by
  induction names with
  | nil => rfl
  | cons name names ih => exact congrArg (_ :: ·) ih

namespace Proc.TakenApart

variable {p q : Proc} {alloc : String} {dim : Nat} {templates : Templates}

/-- In the scope of the parts the declarations from behind the buffer stay, and nothing refers to it. -/
theorem decls_rest (a : p.TakenApart alloc dim q) (hvalid : p.problems templates = []) :
    a.rest'.decls = a.rest.decls ∧
      ∀ s ∈ Block.nested (a.d.parts dim a.names ++ a.rest'), ¬ s.Refers a.d.name := by
  obtain ⟨sc, hleads⟩ := a.recast.exists_leads p.scope
  have hold := hleads.old _ (Proc.wellScoped hvalid)
  have hturns := a.turns hold
  refine ⟨Parts.decls_of_turns hturns, ?_⟩
  have hnew : WellScopedAll none sc (a.d.parts dim a.names ++ a.rest') := by
    refine hleads.new none ?_
    have hout := Proc.wellScoped a.valid
    rwa [a.made] at hout
  refine hnew.not_refers (checkStmt_alloc.1 hold.1).1 ?_
  rw [Block.nested, nestedAll_append, Decl.nestedAll_parts]
  refine List.forall_mem_append.2 ⟨fun s hs heq => ?_, Parts.binds_of_turns hturns⟩
  obtain ⟨name, hname, rfl⟩ := List.mem_map.1 hs
  obtain rfl : name = a.d.name := Option.some.inj heq
  refine a.fresh _ hname (List.mem_append_right _ (a.recast.mem_binders ?_))
  rw [binders_cons]
  exact List.mem_append_left _ (.head _)

end Proc.TakenApart

/-- **A buffer can be taken apart.** The kernel does the same wherever it ran. In the scope of the
allocation the parts have the place of the buffer, nothing refers to it, and the other declarations
are the same; outside that scope nothing changes. -/
theorem Proc.run_unrollBuffer {p out : Proc} {templates : Scope.Templates}
    (hvalid : p.problems templates = []) {alloc : String} {dim : Nat}
    (hout : p.unrollBuffer alloc dim = .ok out) :
    (∀ {α : Type} [Element α] (c : Catalog) (args : Args α),
      (p.run c args).1 = .ok () → out.run c args = p.run c args) ∧
    ∃ path d n, ∃ rest rest' : Block, p.pickAlloc alloc = .ok (path, d) ∧
      Block.Recast (.alloc d :: rest) (d.parts dim (d.partNames n) ++ rest') path p.body out.body ∧
      rest'.decls = rest.decls ∧
      ∀ s ∈ Block.nested (d.parts dim (d.partNames n) ++ rest'), ¬ s.Refers d.name := by
  obtain ⟨a⟩ := takenApart_of_unrollBuffer hout
  have hbody : out.body = a.body := congrArg Proc.body a.made
  refine ⟨fun c args hrun => ?_, a.path, a.d, _, a.rest, a.rest', a.picked, hbody ▸ a.recast,
    a.decls_rest hvalid⟩
  rw [a.made]
  exact run_recast a.recast (fun env e st acts hreach => a.trace_parts hvalid hreach) hrun

/-- Swaps the elements of each row through a buffer, and uses its name again. -/
def swapping : Proc where
  name := "swapping"
  params := [.buffer ⟨"x", .f32, [.int 2, .int 2], .dram⟩]
  body := [
    .loop ⟨"i", .int 2, .seq⟩ [
      .alloc ⟨"t", .f32, [.int 2, .int 1], .avx2⟩,
      .store .set "t" [.int 0, .int 0] (.read "x" [.var "i", .int 0]),
      .store .set "t" [.int 1, .int 0] (.read "x" [.var "i", .int 1]),
      .store .set "x" [.var "i", .int 0] (.read "t" [.int 1, .int 0]),
      .store .set "x" [.var "i", .int 1] (.read "t" [.int 0, .int 0])],
    .alloc ⟨"t", .f32, [.int 2], .avx2⟩,
    .store .set "t" [.int 1] (.read "x" [.int 0, .int 0])]

/-- The same with the buffer of the rows taken apart. -/
def swappingApart : Proc := { swapping with body := [
  .loop ⟨"i", .int 2, .seq⟩ [
    .alloc ⟨"t_0", .f32, [.int 1], .avx2⟩,
    .alloc ⟨"t_1", .f32, [.int 1], .avx2⟩,
    .store .set "t_0" [.int 0] (.read "x" [.var "i", .int 0]),
    .store .set "t_1" [.int 0] (.read "x" [.var "i", .int 1]),
    .store .set "x" [.var "i", .int 0] (.read "t_1" [.int 0]),
    .store .set "x" [.var "i", .int 1] (.read "t_0" [.int 0])],
  .alloc ⟨"t", .f32, [.int 2], .avx2⟩,
  .store .set "t" [.int 1] (.read "x" [.int 0, .int 0])] }

def swappingArgs : Args Float := ⟨[], [("x", ⟨.f32, [2, 2], #[3, 5, 7, 11]⟩)]⟩

theorem swapping_unrollBuffer : swapping.unrollBuffer "t #0" 0 = .ok swappingApart := by cbv

theorem swapping_apart : swapping.problems (some (Catalog.find? {})) = [] ∧
    swappingApart.run {} swappingArgs = swapping.run {} swappingArgs := by
  have hvalid : swapping.problems (some (Catalog.find? {})) = [] := rfl
  exact ⟨hvalid, (Proc.run_unrollBuffer hvalid swapping_unrollBuffer).1 {} swappingArgs rfl⟩

end LoopNest
