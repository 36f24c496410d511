import LoopNest.Proofs.Binding
import LoopNest.Proofs.Recast
import LoopNest.Proofs.Trace.Reseat
import LoopNest.Proofs.Trace.ToRun

/-!
# Changing a kernel in one place

From some statement on, a block in a kernel may become another one that leaves the same tensors in
every state the run comes to there: the run of the kernel then stays as it is (`Proc.run_recast`). If
the new statements may also overflow then so may the new kernel (`Proc.run_recast_or_overflows`).

What is known of such a state is that buffers stand for whole tensors of their own, and that all names
bound so far are visible (`Env.Tidy`).
-/

namespace LoopNest

open Exec Stmt Block

variable {acts : List Action} {e env' : Env} {rest : Block} {P : Env → Stmt → Prop} {ev : Evaluator}
  {g : Nat → List Action} {params : List Param}

/-! ## States of a kernel -/

/-- Buffers stand for whole tensors of their own, and all names that are bound are in `seen`. -/
structure Env.Tidy (seen : List String) (env : Env) (lay : Layout) : Prop where
  plain : env.Plain lay
  bound : ∀ x, x ∉ seen → env.lookup x = none

namespace Env.Tidy

variable {seen : List String} {env : Env} {lay : Layout}

theorem bind_index (h : env.Tidy seen lay) (x : String) (n : Word) :
    Env.Tidy (x :: seen) (env.bind x (.index n)) lay := by
  refine ⟨h.plain.bind_index x n, fun y hy => ?_⟩
  simp only [List.mem_cons, not_or] at hy
  rw [lookup_bind, if_neg hy.1, h.bound y hy.2]

theorem bind_whole (h : env.Tidy seen lay) (x : String) (shape : List Nat) (s : Slot) :
    Env.Tidy (x :: seen) (env.bind x (.buffer (.whole lay.length x shape))) (lay ++ [s]) := by
  refine ⟨h.plain.bind_whole x shape s, fun y hy => ?_⟩
  simp only [List.mem_cons, not_or] at hy
  rw [lookup_bind, if_neg hy.1, h.bound y hy.2]

theorem mono (h : env.Tidy seen lay) {seen' : List String} (hsub : seen ⊆ seen') :
    env.Tidy seen' lay :=
  ⟨h.plain, fun x hx => h.bound x fun hmem => hx (hsub hmem)⟩

theorem trace (h : env.Tidy seen lay) {c : Catalog} {callee : Callee} (hc : callee.Closed)
    {s : Stmt} (ht : s.trace ev c callee env lay = some (acts, env')) :
    env'.Tidy (s.declared ++ seen) (lay.after acts) := by
  cases hd : s.decl? with
  | none =>
    obtain ⟨hclose, rfl⟩ := (trace_grows hc ht).1 hd
    rw [hclose.after]
    simpa [declared, hd] using h
  | some d =>
    cases s with
    | alloc d =>
      obtain ⟨shape, size, -, -, ⟨⟩⟩ := trace_alloc.1 ht
      exact h.bind_whole d.name shape _
    | _ => cases hd

end Env.Tidy

/-- What a block adds to its environment: its own allocations, which are new tensors. -/
theorem Stmt.lookup_of_traceAll {c : Catalog} {callee : Callee} (hc : callee.Closed) {b : Block}
    {env : Env} {lay : Layout} (h : traceAll ev c callee env lay b = some (acts, e)) (x : String) :
    (x ∉ b.flatMap (·.declared) ∧ e.lookup x = env.lookup x) ∨
      (x ∈ b.flatMap (·.declared) ∧ ∃ v, e.lookup x = some (.buffer v) ∧
        lay.length ≤ v.tensor ∧ v.tensor < (lay.after acts).length) := by
  induction b generalizing env lay acts with
  | nil =>
    obtain ⟨⟩ := traceAll_nil.1 h
    exact .inl ⟨by simp, rfl⟩
  | cons s rest ih =>
    obtain ⟨a, e₁, a', e₂, hs, hrest, ⟨⟩⟩ := traceAll_cons.1 h
    rw [Layout.after_append, List.flatMap_cons, List.mem_append]
    have hgrow : (lay.after a).length ≤ ((lay.after a).after a').length := by
      obtain ⟨ext, hext⟩ := (traceAll_grows hc _ hrest).after
      rw [hext, List.length_append]
      omega
    have htail := ih hrest
    cases hd : s.decl? with
    | none =>
      obtain ⟨hclose, rfl⟩ := (trace_grows hc hs).1 hd
      rw [hclose.after] at htail ⊢
      simpa [declared, hd] using htail
    | some d =>
      cases s with
      | alloc d' =>
        obtain ⟨shape, size, -, -, ⟨⟩⟩ := trace_alloc.1 hs
        have hlen : (lay.after [Action.alloc d'.ty shape size]).length = lay.length + 1 := by
          simp [Action.relayout]
        rw [hlen] at htail hgrow
        rw [Env.lookup_bind] at htail
        simp only [declared, decl?, Option.map_some, Option.toList_some, List.mem_singleton]
        obtain ⟨hx, hlook⟩ | ⟨hx, v, hlook, hlo, hhi⟩ := htail
        · by_cases hxd : x = d'.name
          · rw [if_pos hxd] at hlook
            refine .inr ⟨.inl hxd, _, hlook, Nat.le_refl _, ?_⟩
            simp only [View.whole]
            omega
          · rw [if_neg hxd] at hlook
            exact .inl ⟨fun h => h.elim hxd hx, hlook⟩
        · exact .inr ⟨.inr hx, v, hlook, by omega, hhi⟩
      | _ => cases hd

section context

variable {α : Type} [Element α] {c : Catalog} {callee : Callee}
  {exec : Env → Block → Exec α Unit}

/-! ## Along a run -/

variable {n : Nat} {st st' : Store α} {env : Env} {h : Header} {body b : Block} {path : Path}

omit [Element α] in
theorem layout_of_countUp {f : Word → Exec α Unit}
    (hf : ∀ k st st', (f k).run.run st = (.ok (), st') → st'.layout = st.layout) {k : Nat}
    (h : (countUp f n k).run.run st = (.ok (), st')) : st'.layout = st.layout := by
  induction n generalizing k st with
  | zero => rw [(run_pure_eq_ok.1 h).2]
  | succ n ih =>
    obtain ⟨_, st₁, h₁, h₂⟩ := run_bind_eq_ok.1 h
    rw [ih h₂, hf _ _ _ h₁]

/-- A block never gives back tensors that were there before it. -/
theorem Grows.length_le (h : Grows st.layout acts) : st.length ≤ (perform acts st).length := by
  rw [← Store.length_layout, ← Store.length_layout, layout_perform]
  exact h.length_le_after

variable (hc : callee.Closed)
include hc

/-- A round gives back what it allocates. -/
theorem Stmt.layout_of_round (hcov : callee.Covers exec) {k : Word}
    (hrun : (Stmt.round c exec env h body k).run.run st = (.ok (), st')) :
    st'.layout = st.layout := by
  obtain ⟨s, hs, rfl⟩ := run_inScope_eq_ok.1 hrun
  obtain ⟨acts, e, hacts, rfl⟩ := traceAll_of_execAll .checked hc hcov body hs
  rw [← perform_scope, layout_perform, (scope_traceAll_closes hc hacts).after]

/-- **What holds along a run** of the environment, the layout and the statements that are left. -/
theorem Block.Reaches.along (hcov : callee.Covers exec) {I : Env → Layout → Block → Prop}
    (hnext : ∀ {env env' lay s rest acts}, s.trace .checked c callee env lay = some (acts, env') →
      I env lay (s :: rest) → I env' (lay.after acts) rest)
    (hloop : ∀ {env lay h body rest} n,
      (0 ≤ n.toInt ∧ ∀ m, h.bound.constant? = some m → n.toInt < m.toInt) →
      I env lay (.loop h body :: rest) → I (env.bind h.var (.index n)) lay body)
    (hguard : ∀ {env lay e body rest}, I env lay (.guard e body :: rest) → I env lay body)
    (h : Reaches c exec env st b path env' st') (hI : I env st.layout b) :
    ∃ rest, b.from? path = some rest ∧ I env' st'.layout rest := by
  induction h with
  | here => exact ⟨_, rfl, hI⟩
  | next hrun hreach ih =>
    rw [from?_succ]
    obtain ⟨acts, ht, rfl⟩ := trace_of_exec .checked hc hcov hrun
    exact ih (by rw [layout_perform]; exact hnext ht hI)
  | loop hn hk hrounds hreach ih =>
    rw [from?_zero hreach.path_ne_nil]
    have hlay := layout_of_countUp (fun _ _ _ => layout_of_round hc hcov) hrounds
    exact ih (hlay ▸ hloop _ (Header.lt_of_constant? (Evaluator.checked_eval.2 hn) hk) hI)
  | guard _ hreach ih =>
    rw [from?_zero hreach.path_ne_nil]
    exact ih (hguard hI)

/-- All that is bound on the way is new. -/
theorem Block.Reaches.tidy (hcov : callee.Covers exec) (h : Reaches c exec env st b path env' st')
    {seen : List String} (htidy : env.Tidy seen st.layout) (hfresh : FreshAll seen b) :
    ∃ rest, b.from? path = some rest ∧
      ∃ seen', env'.Tidy seen' st'.layout ∧ FreshAll seen' rest := by
  refine h.along hc hcov (I := fun env lay b => ∃ seen, env.Tidy seen lay ∧ FreshAll seen b)
    ?_ ?_ ?_ ⟨seen, htidy, hfresh⟩
  · rintro env env' lay s rest acts ht ⟨seen, htidy, hfresh⟩
    exact ⟨_, htidy.trace hc ht, hfresh.2⟩
  · rintro env lay h body rest n - ⟨seen, htidy, hfresh⟩
    exact ⟨_, htidy.bind_index h.var n, hfresh.1.2⟩
  · rintro env lay e body rest ⟨seen, htidy, hfresh⟩
    exact ⟨seen, htidy, hfresh.1⟩

/-! ## Changes in context -/

/-- Rounds with traces run to their ends. -/
theorem Stmt.run_rounds (hruns : callee.Runs exec)
    (hg : ∀ k < n, ∃ e, traceAll .checked c callee (env.turn h k) st.layout body = some (g k, e)) :
    (countUp (Stmt.round c exec env h body) n 0).run.run st =
      (.ok (), perform ((List.range n).flatMap fun k => scope st.layout (g k)) st) := by
  have hends : Ends False (countUp (Stmt.round c exec env h body) n 0) st ()
      (perform ((List.range n).flatMap fun k => scope st.layout (g k)) st) := by
    refine rounds_end (fun k hk => ?_) fun k hk st' hlay _ _ => Ends.like (.inl ?_)
    · obtain ⟨e, he⟩ := hg k hk
      exact scope_traceAll_closes hc he
    · obtain ⟨e, he⟩ := hg k hk
      rw [← hlay] at he
      exact execAll_of_traceAll hc hruns he
  exact hends.resolve_right fun h => h.2

/-- Rounds leave the tensors that were there before, and no others. -/
theorem Stmt.layout_rounds
    (hg : ∀ k < n, ∃ e, traceAll .checked c callee (env.turn h k) st.layout body = some (g k, e)) :
    Store.layout (perform ((List.range n).flatMap fun k => scope st.layout (g k)) st) =
      st.layout := by
  refine layout_perform_rounds fun k hk => ?_
  obtain ⟨e, he⟩ := hg k hk
  exact scope_traceAll_closes hc he

/-- A statement that may overflow, before others that have a trace. -/
theorem Ends.before_rest (hruns : callee.Runs exec) {s : Stmt} {e' : Env} {a a' : List Action}
    (hs : Ends (Meets c exec P env st [s]) (s.exec c exec env) st e (perform a st))
    (hrest : traceAll .checked c callee e (st.layout.after a) rest = some (a', e')) :
    EndsLike (Meets c exec P env st (s :: rest)) (execAll c exec env (s :: rest)) st (a ++ a') := by
  rw [← layout_perform] at hrest
  refine ⟨_, (hs.mono (·.append rest)).bind fun _ => .inl ?_, rfl⟩
  rw [perform_append]
  exact execAll_of_traceAll hc hruns hrest

/-- **Replacing the end of a block.** From some statement on a block becomes another one that leaves
the tensors from before as they were, in every state the run comes to there, or overflows where `P`
holds. Then all blocks around it do so. -/
theorem Block.Recast.ends (hruns : callee.Runs exec) {s : Stmt} {t' b' : Block}
    (hrel : Recast (s :: rest) t' path b b')
    (hlocal : ∀ env' e' st' acts, Reaches c exec env st b path env' st' →
      traceAll .checked c callee env' st'.layout (s :: rest) = some (acts, e') →
        EndsLike (Meets c exec P env' st' t') (execAll c exec env' t') st' acts)
    (ht : traceAll .checked c callee env st.layout b = some (acts, e)) :
    EndsLike (Meets c exec P env st b') (execAll c exec env b') st acts := by
  induction hrel generalizing env e st acts with
  | here => exact hlocal env e st acts .here ht
  | @next i path t rest rest' hrel ih =>
    obtain ⟨a, e₁, a', e₂, hs, hrest, ⟨⟩⟩ := traceAll_cons.1 ht
    have hrun := exec_of_trace hc hruns hs
    rw [← layout_perform] at hrest
    obtain ⟨st', hends, htake⟩ := ih
      (fun env' e' st' acts hreach => hlocal env' e' st' acts (.next hrun hreach)) hrest
    refine ⟨st', Ends.bind (.inl hrun) fun _ => hends.mono (.next hrun), ?_⟩
    -- what the statement before allocates is given back later than what the rest does
    have htake' := congrArg (List.take st.length) htake
    rwa [List.take_take, List.take_take, Nat.min_eq_left (trace_grows hc hs).2.length_le,
      ← perform_append] at htake'
  | @inside path t body body' rest hbody hrel ih =>
    obtain ⟨a, e₁, a', e₂, hs, hrest, ⟨⟩⟩ := traceAll_cons.1 ht
    -- the body is a scope of its own, so the statement that holds it leaves the same store
    suffices hstmt : Ends (Meets c exec P env st [t.withBody body'])
        ((t.withBody body').exec c exec env) st e₁ (perform a st) from
      hstmt.before_rest hc hruns hrest
    cases t with
    | loop hd b =>
      cases hbody
      obtain ⟨n, g, hn, hg, ⟨⟩⟩ := trace_loop.1 hs
      have hbound := Evaluator.checked_eval.1 hn
      refine exec_loop_ends hbound (fun k hk => ?_) fun k hk st' hlay hst' => ?_
      · obtain ⟨e', he'⟩ := hg k hk
        exact scope_traceAll_closes hc he'
      · obtain ⟨e', he'⟩ := hg k hk
        have hrun := run_rounds hc hruns fun j (hj : j < k) => hg j (Nat.lt_trans hj hk)
        rw [← hst'] at hrun
        rw [← hlay] at he'
        exact ih (fun env' e' st' acts hreach =>
          hlocal env' e' st' acts (.loop hbound hk hrun hreach)) he'
    | guard cond b =>
      cases hbody
      obtain ⟨hcond, ⟨⟩⟩ | ⟨hcond, x, e', hx, ⟨⟩⟩ := trace_guard.1 hs
      · have hfalse := Evaluator.condition_of_checked hcond
        exact Ends.bind (.inl (run_eval_eq_ok.2 ⟨hfalse, rfl⟩)) fun _ => .inl rfl
      · have htrue := Evaluator.condition_of_checked hcond
        refine Ends.bind (.inl (run_eval_eq_ok.2 ⟨htrue, rfl⟩)) fun _ => ?_
        refine ((ih (fun env' e' st' acts hreach => ?_) hx).mono (.guard htrue)).inScope.bind
          fun _ => .inl rfl
        exact hlocal env' e' st' acts (.guard htrue hreach)
    | _ => cases hbody

end context

/-! ## Kernels -/

/-- What the bodies of templates do when a kernel calls them. -/
def Catalog.calls (c : Catalog) : Callee := Block.trace c (c.callDepth - 1) .checked

/-- The trace of statements of a kernel, as the machine evaluates them. -/
abbrev Catalog.traceAll (c : Catalog) : Env → Layout → Block → Option (List Action × Env) :=
  Stmt.traceAll .checked c c.calls

theorem Catalog.calls_closed (c : Catalog) : c.calls.Closed := trace_closed c _ .checked

theorem Catalog.calls_confined (c : Catalog) : c.calls.Confined := trace_confined c _ .checked

theorem Catalog.calls_seated (c : Catalog) : c.calls.Seated := trace_seated c _ .checked

variable {α : Type}

theorem Catalog.calls_runs [Element α] (c : Catalog) :
    c.calls.Runs (c.callee : Env → Block → Exec α Unit) := trace_runs c _

theorem Catalog.calls_covers [Element α] (c : Catalog) :
    c.calls.Covers (c.callee : Env → Block → Exec α Unit) := trace_covers c _ .checked

/-- The indices among the parameters of a kernel that is run are sizes, which are at least 1. -/
theorem Args.one_le_of_bindParams {args : Args α} {frame : Frame α}
    (h : args.bindParams params = .ok frame) {v : String} {n : Word}
    (hn : frame.env.value? v = some n) : 1 ≤ n.toInt := by
  refine keeps_of_bindParams (P := fun _ f => ∀ v n, f.env.value? v = some n → 1 ≤ n.toInt) h
    (by simp [Env.value?]) (fun hq hf v n hn => ?_) v n hn
  cases hq with
  | size _ hpos =>
    obtain ⟨-, rfl⟩ | ⟨-, hn⟩ := Env.value?_bind_index.1 hn
    · exact hpos
    · exact hf v n hn
  | buffer => exact hf v n (Env.value?_bind_buffer.1 hn).2

/-- The parameters of a kernel that is run stand for whole tensors of their own. -/
theorem Args.tidy_of_bindParams {args : Args α} {frame : Frame α}
    (h : args.bindParams params = .ok frame) :
    frame.env.Tidy (params.map (·.name)) frame.store.layout := by
  refine (keeps_of_bindParams (P := fun rest f => rest ⊆ params ∧
    f.env.Tidy (params.map (·.name)) f.store.layout) h ⟨List.Subset.refl _, .nil _, fun _ _ => rfl⟩
    fun hq hf => ⟨fun q hq => hf.1 (.tail _ hq), ?_⟩).2
  have hname := List.mem_map_of_mem (f := Param.name) (hf.1 (.head _))
  refine Env.Tidy.mono ?_ (List.cons_subset.2 ⟨hname, List.Subset.refl _⟩)
  cases hq with
  | size => exact hf.2.bind_index _ _
  | @buffer d t => simpa [Store.layout, Param.name] using hf.2.bind_whole d.name t.shape t.slot

/-- The run of a kernel comes to a statement of which `P` holds. -/
def Proc.Meets [Element α] (p : Proc) (c : Catalog) (args : Args α) (P : Env → Stmt → Prop) : Prop :=
  ∃ path env st s, p.Reaches c args path env st ∧ p.stmt? path = some s ∧ P env s

section kernels

variable [Element α] {p : Proc} {c : Catalog} {args : Args α} {s : Stmt} {path : Path}
variable {b t' : Block}

/-- A kernel that runs to its end has a trace. -/
theorem Proc.traceAll_of_run (hrun : (p.run c args).1 = .ok ()) :
    ∃ frame acts e, args.bindParams p.params = .ok frame ∧
      c.traceAll frame.env frame.store.layout p.body = some (acts, e) := by
  cases hframe : args.bindParams p.params with
  | error e => simp [Proc.run, hframe] at hrun
  | ok frame =>
    simp only [Proc.run, hframe, Block.exec_callDepth, run_inScope] at hrun
    obtain ⟨acts, e, hacts, -⟩ := Stmt.traceAll_of_execAll .checked c.calls_closed c.calls_covers
      p.body (Prod.ext hrun rfl)
    exact ⟨frame, acts, e, rfl, hacts⟩

/-- A run whose body has a trace. -/
theorem Proc.run_of_traceAll {frame : Args.Frame α} (hframe : args.bindParams p.params = .ok frame)
    (ht : c.traceAll frame.env frame.store.layout p.body = some (acts, e)) :
    p.run c args = (.ok (), args.giveBack frame.names
      (perform (LoopNest.scope frame.store.layout acts) frame.store)) := by
  rw [perform_scope]
  simp only [Proc.run, hframe, Block.exec_callDepth, run_inScope,
    Stmt.execAll_of_traceAll c.calls_closed c.calls_runs ht]

/-- **Changing a kernel from a statement on.** In every state the run comes to there, what follows now
leaves the tensors from before as it did, or overflows where `P` holds. -/
theorem Proc.run_recast_or_overflows (hrel : Block.Recast (s :: rest) t' path p.body b)
    (hlocal : ∀ env e st acts, p.Reaches c args path env st →
      c.traceAll env st.layout (s :: rest) = some (acts, e) →
        EndsLike (Block.Meets c c.callee P env st t') (Stmt.execAll c c.callee env t') st acts)
    (hrun : (p.run c args).1 = .ok ()) :
    { p with body := b }.run c args = p.run c args ∨
      ({ p with body := b }.run c args).1 = .error .overflow ∧
        { p with body := b }.Meets c args P := by
  obtain ⟨frame, acts, e, hframe, hacts⟩ := Proc.traceAll_of_run hrun
  have hends := (hrel.ends c.calls_closed c.calls_runs (fun env e st acts hreach =>
    hlocal env e st acts ⟨frame, hframe, hreach⟩) hacts).inScope
  rw [← Block.exec_callDepth] at hends
  rw [Proc.run_of_traceAll hframe hacts]
  simp only [Proc.run, hframe]
  obtain hok | ⟨⟨st, hover⟩, path, env, st', s, hreach, hget, hP⟩ := hends
  · exact .inl (by rw [hok])
  · exact .inr ⟨by rw [hover], path, env, st', s, ⟨frame, hframe, hreach⟩, hget, hP⟩

/-- The same, if what follows has a trace. -/
theorem Proc.run_recast (hrel : Block.Recast (s :: rest) t' path p.body b)
    (hlocal : ∀ env e st acts, p.Reaches c args path env st →
      c.traceAll env st.layout (s :: rest) = some (acts, e) →
        ∃ acts' e', c.traceAll env st.layout t' = some (acts', e') ∧
          (perform acts' st).take st.length = (perform acts st).take st.length)
    (hrun : (p.run c args).1 = .ok ()) : { p with body := b }.run c args = p.run c args := by
  refine (Proc.run_recast_or_overflows (P := fun _ _ => False) hrel
    (fun env e st acts hreach ht => ?_) hrun).resolve_right fun ⟨_, _, _, _, _, _, _, hP⟩ => hP
  obtain ⟨acts', e', ht', htake⟩ := hlocal env e st acts hreach ht
  exact ⟨_, .inl (Stmt.execAll_of_traceAll c.calls_closed c.calls_runs ht'), htake⟩

variable (hfresh : FreshAll (p.params.map (·.name)) p.body) (hdecl : s.decl? = none)
include hfresh hdecl

/-- A state in which the run comes to a statement that declares nothing. -/
theorem Proc.Reaches.tidy (hrel : Recast (s :: rest) t' path p.body b)
    {env : Env} {st : Store α} (h : p.Reaches c args path env st)
    (ht : c.traceAll env st.layout (s :: rest) = some (acts, e)) :
    ∃ seen a a', env.Tidy seen st.layout ∧ s.Fresh seen ∧
      s.trace .checked c c.calls env st.layout = some (a, env) ∧ acts = a ++ a' ∧
      c.traceAll env (st.layout.after a) rest = some (a', e) := by
  obtain ⟨frame, hframe, hreach⟩ := h
  obtain ⟨_, hfrom, seen, htidy, hfresh⟩ := hreach.tidy c.calls_closed c.calls_covers
    (Args.tidy_of_bindParams hframe) hfresh
  obtain rfl := Option.mem_unique hrel.from? hfrom
  obtain ⟨a, e₁, a', e₂, hs, hrest, ⟨⟩⟩ := Stmt.traceAll_cons.1 ht
  obtain ⟨-, rfl⟩ := (trace_grows c.calls_closed hs).1 hdecl
  exact ⟨seen, a, a', htidy, hfresh.1, hs, rfl, hrest⟩

/-- **Replacing in a kernel.** A statement of a kernel is replaced by statements that do the same, in
the arithmetic of the run, in every state the run comes to. -/
theorem Proc.run_replaced {new : Block} (hrel : Replaced s new path p.body b)
    (hlocal : ∀ seen env st acts, p.Reaches c args path env st → env.Tidy seen st.layout →
      s.Fresh seen → s.trace .checked c c.calls env st.layout = some (acts, env) →
        ∃ acts', c.traceAll env st.layout new = some (acts', env) ∧ EquivIn α st.layout acts acts')
    (hrun : (p.run c args).1 = .ok ()) : { p with body := b }.run c args = p.run c args := by
  obtain ⟨rest, hrel⟩ := hrel
  refine Proc.run_recast hrel (fun env e st acts hreach ht => ?_) hrun
  obtain ⟨seen, a, a', htidy, hs, hat, rfl, hrest⟩ := hreach.tidy hfresh hdecl hrel ht
  obtain ⟨x, hx, heq⟩ := hlocal seen env st a hreach htidy hs hat
  refine ⟨x ++ a', e, Stmt.traceAll_append.2 ⟨x, env, a', e, hx, by rwa [← heq.1], rfl⟩, ?_⟩
  rw [perform_append, perform_append, heq.2 st rfl]

/-- Replacing by a statement that does the same, or overflows where `P` holds. -/
theorem Proc.run_replaced_or_overflows {t : Stmt} (hrel : Replaced s [t] path p.body b)
    (hlocal : ∀ seen env st acts, p.Reaches c args path env st → env.Tidy seen st.layout →
      s.Fresh seen → s.trace .checked c c.calls env st.layout = some (acts, env) →
        Ends (Block.Meets c c.callee P env st [t]) (t.exec c c.callee env) st env (perform acts st))
    (hrun : (p.run c args).1 = .ok ()) :
    { p with body := b }.run c args = p.run c args ∨
      ({ p with body := b }.run c args).1 = .error .overflow ∧
        { p with body := b }.Meets c args P := by
  obtain ⟨rest, hrel⟩ := hrel
  refine Proc.run_recast_or_overflows hrel (fun env e st acts hreach ht => ?_) hrun
  obtain ⟨seen, a, a', htidy, hs, hat, rfl, hrest⟩ := hreach.tidy hfresh hdecl hrel ht
  exact (hlocal seen env st a hreach htidy hs hat).before_rest c.calls_closed c.calls_runs hrest

end kernels

end LoopNest
