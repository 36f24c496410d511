import LoopNest.Proofs.Reach
import LoopNest.Proofs.Trace.OfRun

/-!
# Invariants of runs

What a run keeps, whether it ends or fails, follows from what its steps keep: a property of
environments that the bindings made on the way have as well, and a property of stores that is kept by
an allocation, by an assignment and at the end of a block (`Invariant`). All statements keep them,
those of the templates that are called included, and a block leaves the tensors that it found, in
their types and shapes (`Block.exec_keeps`).

`Block.Visits` are the states that a run passes through: before and after every statement, where one
has failed, and inside the templates that are called. An invariant holds in all of them
(`Block.Visits.keeps`).
-/

namespace LoopNest

open Exec Stmt

/-! ## Computations -/

section keeps

variable {α β γ : Type} {S : Store α → Prop} {Q : β → Store α → Prop} {R : γ → Store α → Prop}
  {st : Store α}
variable {f : β → Exec α γ} {x : Exec α β}

/-- Run on `st`, the computation leaves a store with `S` that has the tensors of `st`, and perhaps
more. If it gives a value, then one with `Q`. -/
structure Exec.Keeps (S : Store α → Prop) (Q : β → Store α → Prop) (x : Exec α β) (st : Store α) :
    Prop where
  store : S (x.run.run st).2
  layout : st.layout <+: (x.run.run st).2.layout
  value : ∀ b, (x.run.run st).1 = .ok b → Q b (x.run.run st).2

namespace Exec.Keeps

theorem pure {b : β} (hst : S st) (hb : Q b st) : Keeps S Q (Pure.pure b : Exec α β) st :=
  ⟨hst, List.prefix_rfl, fun _ h => Except.ok.inj h ▸ hb⟩

theorem modify {f : Store α → Store α} (hst : S (f st)) (hlay : st.layout <+: (f st).layout) :
    Keeps S (fun _ st' => st' = f st) (modify f : Exec α PUnit) st :=
  ⟨hst, hlay, fun _ _ => rfl⟩

theorem bind (h : Keeps S Q x st)
    (hf : ∀ b st', S st' → st.layout <+: st'.layout → Q b st' → Keeps S R (f b) st') :
    Keeps S R (x >>= f) st := by
  cases hx : x.run.run st with
  | mk r st' =>
    have hst : S st' := by simpa only [hx] using h.store
    have hlay : st.layout <+: st'.layout := by simpa only [hx] using h.layout
    cases r with
    | error e =>
      refine ⟨?_, ?_, fun b hb => ?_⟩ <;> simp only [run_bind_error hx] at *
      · exact hst
      · exact hlay
      · cases hb
    | ok b =>
      have hb : Q b st' := by simpa only [hx] using h.value b (by rw [hx])
      obtain ⟨h1, h2, h3⟩ := hf b st' hst hlay hb
      refine ⟨?_, ?_, ?_⟩ <;> rw [run_bind_ok hx]
      · exact h1
      · exact hlay.trans h2
      · exact h3

theorem bind_eval {x : Except Failure β} (hst : S st) (hf : ∀ b, x = .ok b → Keeps S R (f b) st) :
    Keeps S R (Exec.eval x >>= f) st := by
  cases x with
  | ok b => exact hf b rfl
  | error e => exact ⟨hst, List.prefix_rfl, nofun⟩

theorem bind_get {f : Store α → Exec α γ} (hf : Keeps S R (f st) st) :
    Keeps S R (MonadState.get >>= f) st := ⟨hf.store, hf.layout, hf.value⟩

/-- A scope leaves the tensors that it found. -/
theorem layout_inScope (h : Keeps S Q x st) :
    ((Exec.inScope x).run.run st).2.layout = st.layout := by
  rw [run_inScope, Store.layout, List.map_take, ← st.length_layout]
  exact (List.prefix_iff_eq_take.1 h.layout).symm

theorem countUp {f : Word → Exec α Unit} (hst : S st)
    (h : ∀ k st', S st' → st'.layout = st.layout →
      Keeps S (fun _ s => s.layout = st.layout) (f k) st') (n k : Nat) :
    Keeps S (fun _ s => s.layout = st.layout) (Exec.countUp f n k) st := by
  suffices hall : ∀ st', S st' → st'.layout = st.layout →
      Keeps S (fun _ s => s.layout = st.layout) (Exec.countUp f n k) st' from hall st hst rfl
  induction n generalizing k with
  | zero => exact fun st' hst' hlay => pure hst' hlay
  | succ n ih =>
    exact fun st' hst' hlay => (h _ st' hst' hlay).bind fun _ s hs _ hlay' => ih (k + 1) s hs hlay'

end Exec.Keeps

end keeps

/-! ## Statements -/

variable {α : Type} [Element α] {c : Catalog} {E : Env → Layout → Prop} {S : Store α → Prop}

/-- All steps of runs keep `E` for the environment and the tensors that there are, and `S` for the
store. -/
structure Invariant (c : Catalog) (E : Env → Layout → Prop) (S : Store α → Prop) : Prop where
  grow : ∀ {env lay lay'}, E env lay → lay <+: lay' → E env lay'
  bind_index : ∀ {env lay} x n, E env lay → E (env.bind x (.index n)) lay
  bind_whole : ∀ {env lay} {d : Decl} {shape : List Nat} {t : Tensor α}, E env lay →
    env.shape d = .ok shape → Tensor.undefined? d.ty shape = some t →
    E (env.bind d.name (.buffer (.whole lay.length d.name shape))) (lay ++ [t.slot])
  enter : ∀ {env lay name args inner body}, E env lay →
    c.enter env name args = .ok (inner, body) → E inner lay
  alloc : ∀ {st : Store α} {ty shape t}, S st → Tensor.undefined? ty shape = some t → S (st ++ [t])
  assign : ∀ {env} {st : Store α} {buf idx place} f, S st → E env st.layout →
    st.locate env buf idx = .ok place → S (st.modifyAt place f)
  release : ∀ {st st' : Store α}, S st → S st' → st.layout <+: st'.layout → S (st'.take st.length)

/-- Run on stores with `S` in environments with `E`, blocks leave a store with `S` and the tensors
that they found. -/
def Invariant.KeptBy (E : Env → Layout → Prop) (S : Store α → Prop)
    (callee : Env → Block → Exec α Unit) : Prop :=
  ∀ env b {st}, E env st.layout → S st →
    S ((callee env b).run.run st).2 ∧ ((callee env b).run.run st).2.layout = st.layout

/-- How calls run in a block in which they are nested at most `depth` deep. -/
def Catalog.calleeAt (c : Catalog) : (depth : Nat) → Env → Block → Exec α Unit
  | 0 => fun _ _ => throw .tooDeep
  | depth + 1 => Block.exec c depth

theorem Block.exec_eq (c : Catalog) (depth : Nat) (env : Env) (b : Block) :
    (Block.exec c depth env b : Exec α Unit) = inScope (execAll c (c.calleeAt depth) env b) := by
  cases depth <;> rfl

variable {callee : Env → Block → Exec α Unit} {env : Env} {st : Store α} (inv : Invariant c E S)
include inv

theorem Invariant.keeps_inScope {x : Exec α Unit} (hst : S st) (h : Keeps S (fun _ _ => True) x st) :
    Keeps S (fun _ s => s.layout = st.layout) (inScope x) st where
  store := inv.release hst h.store h.layout
  layout := h.layout_inScope ▸ List.prefix_rfl
  value _ _ := h.layout_inScope

/-- **One statement.** It keeps the invariant if its body and the templates that it calls do. -/
theorem Stmt.exec_keeps (hcallee : Invariant.KeptBy E S callee) {s : Stmt}
    (hbody : ∀ body, s.body? = some body → ∀ {env st}, E env st.layout → S st →
      Keeps S (fun _ _ => True) (execAll c callee env body) st)
    (henv : E env st.layout) (hst : S st) :
    Keeps S (fun env' st' => E env' st'.layout) (s.exec c callee env) st := by
  cases s with
  | loop h body =>
    rw [Stmt.exec]
    refine .bind_eval hst fun n _ => (Keeps.countUp hst (fun k st' hst' hlay => ?_) _ 0).bind
      fun _ s hs _ hlay => .pure hs (hlay ▸ henv)
    exact hlay ▸ inv.keeps_inScope hst' (hbody body rfl (inv.bind_index _ _ (hlay ▸ henv)) hst')
  | guard e body =>
    rw [Stmt.exec]
    refine .bind_eval hst fun t _ => ?_
    cases t with
    | false => exact .pure hst henv
    | true =>
      exact (inv.keeps_inScope hst (hbody body rfl henv hst)).bind fun _ s hs _ hlay =>
        .pure hs (hlay ▸ henv)
  | store u b idx rhs =>
    have hassign : ∀ {place} (f : α → α), st.locate env b idx = .ok place →
        Keeps S (fun env' st' => E env' st'.layout)
          (do modify (·.modifyAt place f); return env) st := by
      intro place f hplace
      have hlay := st.layout_modifyAt place f
      exact (Keeps.modify (inv.assign f hst henv hplace) (hlay ▸ List.prefix_rfl)).bind
        fun _ s hs _ heq => .pure hs (heq ▸ hlay.symm ▸ henv)
    rw [Stmt.exec]
    refine .bind_get (.bind_eval hst fun x _ => .bind_get (.bind_eval hst fun place hplace => ?_))
    cases u with
    | set | add => exact hassign _ hplace
  | alloc d =>
    rw [Stmt.exec]
    refine .bind_eval hst fun shape hshape => .bind_eval hst fun t ht => .bind_get ?_
    have hnew := inv.bind_whole henv hshape (noOverflow_eq_ok.1 ht)
    have hlay : (st ++ [t]).layout = st.layout ++ [t.slot] := by simp [Store.layout]
    rw [st.length_layout, ← hlay] at hnew
    have hgrows : st.layout <+: (st ++ [t]).layout := hlay ▸ List.prefix_append _ _
    refine (Keeps.modify (f := (· ++ [t])) (inv.alloc hst (noOverflow_eq_ok.1 ht)) hgrows).bind
      fun _ s hs _ heq => .pure hs ?_
    exact heq ▸ hnew
  | call name args =>
    rw [Stmt.exec]
    refine .bind_eval hst fun x hin => ?_
    obtain ⟨inner, body⟩ := x
    obtain ⟨hst', hlay⟩ := hcallee inner body (inv.enter henv hin) hst
    have hrun : Keeps S (fun _ s => s.layout = st.layout) (callee inner body) st :=
      ⟨hst', hlay ▸ List.prefix_rfl, fun _ _ => hlay⟩
    exact hrun.bind fun _ s hs _ hlay => .pure hs (hlay ▸ henv)

theorem Stmt.execAll_keeps (hcallee : Invariant.KeptBy E S callee)
    {b : Block} (henv : E env st.layout) (hst : S st) :
    Keeps S (fun _ _ => True) (execAll c callee env b) st := by
  induction b using Block.induction generalizing env st with
  | nil => exact .pure hst trivial
  | cons s rest ihs ihrest =>
    rw [execAll]
    exact (Stmt.exec_keeps inv hcallee (fun body h => ihs body h) henv hst).bind
      fun env' st' hst' _ henv' => ihrest henv' hst'

theorem Catalog.calleeAt_keeps (depth : Nat) : Invariant.KeptBy E S (c.calleeAt depth) := by
  induction depth with
  | zero => exact fun _ _ _ _ hst => ⟨hst, rfl⟩
  | succ depth ih =>
    intro env b st henv hst
    have h := execAll_keeps inv ih (b := b) henv hst
    rw [calleeAt, Block.exec_eq]
    exact ⟨(inv.keeps_inScope hst h).store, h.layout_inScope⟩

/-- **Runs keep the invariant**, ended or failed, however deep their calls are nested. -/
theorem Block.exec_keeps (depth : Nat) : Invariant.KeptBy E S (Block.exec c depth) :=
  c.calleeAt_keeps inv (depth + 1)

/-! ## The states of a run -/

/-- Running the statements from the environment and store given first passes through those given
last. -/
inductive Block.Visits (c : Catalog) : Nat → Env → Store α → Block → Env → Store α → Prop
  | here {depth : Nat} {env : Env} {st : Store α} {b : Block} : Visits c depth env st b env st
  | next {depth : Nat} {env env' env'' : Env} {st st' st'' : Store α} {s : Stmt} {rest : Block} :
    (s.exec c (c.calleeAt depth) env).run.run st = (.ok env', st') →
    Visits c depth env' st' rest env'' st'' → Visits c depth env st (s :: rest) env'' st''
  | stop {depth : Nat} {env : Env} {st st' : Store α} {s : Stmt} {rest : Block} {f : Failure} :
    (s.exec c (c.calleeAt depth) env).run.run st = (.error f, st') →
    Visits c depth env st (s :: rest) env st'
  | loop {depth : Nat} {env env'' : Env} {st st' st'' : Store α} {h : Header} {body rest : Block}
      {n : Word} {k : Nat} :
    env.index h.bound = .ok n → k < n.toInt.toNat →
    (countUp (round c (c.calleeAt depth) env h body) k 0).run.run st = (.ok (), st') →
    Visits c depth (env.bind h.var (.index (Int64.ofNat k))) st' body env'' st'' →
    Visits c depth env st (.loop h body :: rest) env'' st''
  | guard {depth : Nat} {env env'' : Env} {st st'' : Store α} {e : Expr} {body rest : Block} :
    env.condition e = .ok true → Visits c depth env st body env'' st'' →
    Visits c depth env st (.guard e body :: rest) env'' st''
  | call {depth : Nat} {env inner env'' : Env} {st st'' : Store α} {name : String}
      {args : List Window} {body rest : Block} :
    c.enter env name args = .ok (inner, body) → Visits c depth inner st body env'' st'' →
    Visits c (depth + 1) env st (.call name args :: rest) env'' st''

/-- The run of a kernel on arguments passes through a state of its body or ends in one, however deep
calls may be nested. -/
def Proc.Visits (p : Proc) (c : Catalog) (args : Args α) (env : Env) (st : Store α) : Prop :=
  ∃ frame depth, args.bindParams p.params = .ok frame ∧
    (Block.Visits c depth frame.env frame.store p.body env st ∨
      env = frame.env ∧ st = ((Block.exec c depth env p.body).run.run frame.store).2)

/-- **An invariant holds in every state.** The induction is along the run. -/
theorem Block.Visits.keeps {depth : Nat} {env' : Env} {st' : Store α}
    {b : Block} (h : Block.Visits c depth env st b env' st') (henv : E env st.layout) (hst : S st) :
    E env' st'.layout ∧ S st' := by
  have hstmt : ∀ depth (s : Stmt) {env} {st : Store α}, E env st.layout → S st →
      Keeps S (fun env' st' => E env' st'.layout) (s.exec c (c.calleeAt depth) env) st :=
    fun depth s _ _ henv hst => Stmt.exec_keeps inv (c.calleeAt_keeps inv depth)
      (fun _ _ _ _ => execAll_keeps inv (c.calleeAt_keeps inv depth)) henv hst
  induction h with
  | here => exact ⟨henv, hst⟩
  | @next depth _ _ _ _ _ _ s _ hrun _ ih =>
    have hs := hstmt depth s henv hst
    refine ih ?_ ?_
    · simpa only [hrun] using hs.value _ (by rw [hrun])
    · simpa only [hrun] using hs.store
  | @stop depth _ _ _ s _ _ hrun =>
    have hs := hstmt depth s henv hst
    refine ⟨?_, ?_⟩
    · simpa only [hrun] using inv.grow henv hs.layout
    · simpa only [hrun] using hs.store
  | @loop depth env _ st _ _ h body _ _ k _ _ hrounds _ ih =>
    have hk : Keeps S (fun _ s => s.layout = st.layout)
        (countUp (round c (c.calleeAt depth) env h body) k 0) st := by
      refine Keeps.countUp hst (fun j s hs hlay => ?_) k 0
      exact hlay ▸ inv.keeps_inScope hs (execAll_keeps inv (c.calleeAt_keeps inv depth)
        (inv.bind_index _ _ (hlay ▸ henv)) hs)
    refine ih ?_ ?_
    · have hlay := hk.value () (by rw [hrounds])
      simp only [hrounds] at hlay
      exact inv.bind_index _ _ (hlay ▸ henv)
    · simpa only [hrounds] using hk.store
  | guard _ _ ih => exact ih henv hst
  | call hin _ ih => exact ih (inv.enter henv hin) hst

theorem Proc.Visits.keeps {p : Proc} {args : Args α} (h : p.Visits c args env st)
    (hstart : ∀ frame, args.bindParams p.params = .ok frame →
      E frame.env frame.store.layout ∧ S frame.store) : E env st.layout ∧ S st := by
  obtain ⟨frame, depth, hframe, h | ⟨rfl, rfl⟩⟩ := h
  · exact h.keeps inv (hstart frame hframe).1 (hstart frame hframe).2
  · obtain ⟨henv, hst⟩ := hstart frame hframe
    obtain ⟨hst', hlay⟩ := Block.exec_keeps inv depth frame.env p.body henv hst
    exact ⟨hlay.symm ▸ henv, hst'⟩

end LoopNest
