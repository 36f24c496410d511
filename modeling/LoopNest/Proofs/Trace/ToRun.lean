import LoopNest.Proofs.Trace.OfRun

/-!
# From traces to runs

A statement with a trace runs to its end and leaves the store that the trace carried out leaves
(`Stmt.exec_ends`), unless the machine overflows where the evaluator does not. Machine evaluation
itself misses nothing, so for it there is no exception (`Stmt.exec_of_trace`).
-/

namespace LoopNest

open Exec Stmt Block

/-! ## Computations that end -/

/-- `x` runs to its end with `b` and leaves `st'`, or it overflows and `ovf` holds. -/
def Ends {α β : Type} (ovf : Prop) (x : Exec α β) (st : Store α) (b : β) (st' : Store α) : Prop :=
  x.run.run st = (.ok b, st') ∨ (∃ st'', x.run.run st = (.error .overflow, st'')) ∧ ovf

namespace Ends

variable {α β γ : Type} {ovf ovf' : Prop} {x : Exec α β} {st st' st'' : Store α} {b : β}

theorem mono (h : Ends ovf x st b st') (himp : ovf → ovf') : Ends ovf' x st b st' :=
  h.imp_right fun ⟨hx, ho⟩ => ⟨hx, himp ho⟩

/-- The second part may use that the first ran to its end. -/
theorem bind {f : β → Exec α γ} {d : γ} (hx : Ends ovf x st b st')
    (hf : x.run.run st = (.ok b, st') → Ends ovf (f b) st' d st'') :
    Ends ovf (x >>= f) st d st'' := by
  obtain hx | ⟨⟨s, hx⟩, ho⟩ := hx
  · obtain hf | ⟨⟨s, hf⟩, ho⟩ := hf hx
    · exact .inl (by rw [run_bind_ok hx, hf])
    · exact .inr ⟨⟨s, by rw [run_bind_ok hx, hf]⟩, ho⟩
  · exact .inr ⟨⟨s, run_bind_error hx⟩, ho⟩

theorem of_gives {x : Except Failure β} (h : Gives ovf x b) (st : Store α) :
    Ends ovf (eval x) st b st := by
  obtain rfl | ⟨rfl, ho⟩ := h
  · exact .inl rfl
  · exact .inr ⟨⟨st, rfl⟩, ho⟩

theorem inScope (h : Ends ovf x st b st') : Ends ovf (inScope x) st b (st'.take st.length) := by
  obtain hx | ⟨⟨s, hx⟩, ho⟩ := h
  · exact .inl (run_inScope_eq_ok.2 ⟨st', hx, rfl⟩)
  · exact .inr ⟨⟨_, by rw [run_inScope, hx]⟩, ho⟩

end Ends

/-- It ends and leaves the tensors from before as the actions do, or overflows where `ovf` holds. -/
def EndsLike {α : Type} [Element α] (ovf : Prop) (x : Exec α Unit) (st : Store α)
    (acts : List Action) : Prop :=
  ∃ st', Ends ovf x st () st' ∧ st'.take st.length = (perform acts st).take st.length

section like

variable {α : Type} [Element α] {ovf ovf' : Prop} {x : Exec α Unit} {st : Store α}
  {acts : List Action}

theorem Ends.like (h : Ends ovf x st () (perform acts st)) : EndsLike ovf x st acts := ⟨_, h, rfl⟩

theorem EndsLike.mono (h : EndsLike ovf x st acts) (himp : ovf → ovf') : EndsLike ovf' x st acts := by
  obtain ⟨st', hends, htake⟩ := h
  exact ⟨st', hends.mono himp, htake⟩

/-- In a scope of its own it leaves the store that the actions leave. -/
theorem EndsLike.inScope (h : EndsLike ovf x st acts) :
    Ends ovf (inScope x) st () (perform (scope st.layout acts) st) := by
  obtain ⟨st', hends, htake⟩ := h
  rw [perform_scope, ← htake]
  exact hends.inScope

end like

section sound

variable {ovf : Prop} {hd : Header} {body b : Block}

/-- The evaluator misses an overflow in this very statement. -/
def Evaluator.MissesAt (ev : Evaluator) (env : Env) (s : Stmt) : Prop := ev.MissesIn env s.indexExprs

variable {α : Type} [Element α]

/-- What `callee` has a trace for runs to its end by `exec`. -/
def Callee.Runs (callee : Callee) (exec : Env → Block → Exec α Unit) : Prop :=
  ∀ (env : Env) (b : Block) (st : Store α) (acts : List Action),
    callee env st.layout b = some acts → (exec env b).run.run st = (.ok (), perform acts st)

variable {n : Nat} {g : Nat → List Action} {s : Stmt} {env env' : Env} {st : Store α}
  {acts : List Action}

omit [Element α] in
theorem run_countUp_snoc {f : Word → Exec α Unit} {k : Nat} {st' st'' : Store α}
    (h : (countUp f n k).run.run st = (.ok (), st'))
    (hf : (f (Int64.ofNat (k + n))).run.run st' = (.ok (), st'')) :
    (countUp f (n + 1) k).run.run st = (.ok (), st'') := by
  induction n generalizing k st with
  | zero =>
    obtain ⟨-, rfl⟩ := run_pure_eq_ok.1 h
    exact run_bind_eq_ok.2 ⟨(), st'', hf, rfl⟩
  | succ n ih =>
    obtain ⟨_, st₁, hk, hrest⟩ := run_bind_eq_ok.1 h
    refine run_bind_eq_ok.2 ⟨(), st₁, hk, ih hrest ?_⟩
    rw [show k + 1 + n = k + (n + 1) by omega]
    exact hf

omit [Element α] in
/-- Rounds that end, end together. A round may use that those before it ran to their ends. -/
theorem countUp_ends {f : Word → Exec α Unit} {st : Nat → Store α} {m k : Nat}
    (hround : ∀ j < k + m, (countUp f j 0).run.run (st 0) = (.ok (), st j) →
      Ends ovf (f (Int64.ofNat j)) (st j) () (st (j + 1)))
    (hst : (countUp f k 0).run.run (st 0) = (.ok (), st k)) :
    Ends ovf (countUp f m k) (st k) () (st (k + m)) := by
  induction m generalizing k with
  | zero => exact .inl rfl
  | succ m ih =>
    refine (hround k (by omega) hst).bind fun hk => ?_
    rw [show k + (m + 1) = k + 1 + m by omega]
    exact ih (fun j hj => hround j (by omega)) (run_countUp_snoc hst (by rwa [Nat.zero_add]))

variable {ev : Evaluator} {c : Catalog} {callee : Callee} {exec : Env → Block → Exec α Unit}

/-- Rounds that give back what they allocate leave the layout as it is. -/
theorem layout_perform_rounds (hg : ∀ k < n, Closes st.layout (scope st.layout (g k))) :
    Store.layout (perform ((List.range n).flatMap fun k => scope st.layout (g k)) st) =
      st.layout := by
  rw [layout_perform]
  exact (Closes.flatMap fun k hk => hg k (List.mem_range.1 hk)).after

/-- Rounds of a loop that end, end together. Every round starts where those before it ended. -/
theorem Stmt.rounds_end (hg : ∀ k < n, Closes st.layout (scope st.layout (g k)))
    (hround : ∀ k < n, ∀ st' : Store α, st'.layout = st.layout →
      st' = perform ((List.range k).flatMap fun j => scope st.layout (g j)) st →
      (countUp (Stmt.round c exec env hd body) k 0).run.run st = (.ok (), st') →
        EndsLike ovf (execAll c exec (env.turn hd k) body) st' (g k)) :
    Ends ovf (countUp (Stmt.round c exec env hd body) n 0) st ()
      (perform ((List.range n).flatMap fun k => scope st.layout (g k)) st) := by
  let states : Nat → Store α := fun k =>
    perform ((List.range k).flatMap fun j => scope st.layout (g j)) st
  have hends : Ends ovf (countUp (Stmt.round c exec env hd body) n 0) (states 0) ()
      (states (0 + n)) := by
    refine countUp_ends (fun k hk hbefore => ?_) rfl
    rw [Nat.zero_add] at hk
    have hlay : (states k).layout = st.layout :=
      layout_perform_rounds fun j hj => hg j (Nat.lt_trans hj hk)
    have hnext : states (k + 1) = perform (scope (states k).layout (g k)) (states k) := by
      rw [hlay]
      simp [states, List.range_succ]
    rw [hnext]
    exact (hround k hk _ hlay rfl hbefore).inScope
  rwa [Nat.zero_add] at hends

/-- **A loop whose rounds end does.** -/
theorem Stmt.exec_loop_ends {P : Env → Stmt → Prop} {n : Word} (hn : env.index hd.bound = .ok n)
    (hg : ∀ k < n.toInt.toNat, Closes st.layout (scope st.layout (g k)))
    (hround : ∀ k < n.toInt.toNat, ∀ st' : Store α, st'.layout = st.layout →
      st' = perform ((List.range k).flatMap fun j => scope st.layout (g j)) st →
        EndsLike (Meets c exec P (env.turn hd k) st' body)
          (execAll c exec (env.turn hd k) body) st' (g k)) :
    Ends (Meets c exec P env st [.loop hd body]) ((Stmt.loop hd body).exec c exec env) st env
      (perform ((List.range n.toInt.toNat).flatMap fun k => scope st.layout (g k)) st) := by
  refine Ends.bind (.inl (run_eval_eq_ok.2 ⟨hn, rfl⟩)) fun _ => ?_
  refine Ends.bind (rounds_end hg fun k hk st' hlay hst' hbefore => ?_) fun _ => .inl rfl
  exact (hround k hk st' hlay hst').mono (.loop hn hk hbefore)

/-- **A traced statement runs to its end.** Stated for a statement whose body, if it has one, has
this property. -/
theorem Stmt.exec_ends_of_body (hc : callee.Closed) (hruns : callee.Runs exec)
    (hbody : ∀ body, s.body? = some body → ∀ {env env' : Env} {st : Store α} {acts : List Action},
      traceAll ev c callee env st.layout body = some (acts, env') →
        Ends (Meets c exec ev.MissesAt env st body) (execAll c exec env body) st ()
          (perform acts st)) (h : s.trace ev c callee env st.layout = some (acts, env')) :
    Ends (Meets c exec ev.MissesAt env st [s]) (s.exec c exec env) st env' (perform acts st) := by
  have hhere : ev.MissesIn env s.indexExprs → Meets c exec ev.MissesAt env st [s] :=
    fun hm => .here hm
  cases s with
  | loop hd body =>
    obtain ⟨n, g, hn, hg, ⟨⟩⟩ := trace_loop.1 h
    obtain hbound | ⟨hover, hm⟩ :=
      ((ev.index_tallies (.head _)).mono hhere).gives hn
    · refine exec_loop_ends hbound (fun k hk => ?_) fun k hk st' hlay _ => ?_
      · obtain ⟨e, he⟩ := hg k hk
        exact scope_traceAll_closes hc he
      · obtain ⟨e, he⟩ := hg k hk
        rw [← hlay] at he
        exact (hbody body rfl he).like
    · exact .inr ⟨⟨st, run_bind_error (by rw [hover]; rfl)⟩, hm⟩
  | guard e body =>
    obtain ⟨ht, ⟨⟩⟩ | ⟨ht, a, e', ha, ⟨⟩⟩ := trace_guard.1 h
    · exact (Ends.of_gives (((ev.condition_tallies e).mono hhere).gives ht) st).bind fun _ => .inl rfl
    · refine (Ends.of_gives (((ev.condition_tallies e).mono hhere).gives ht) st).bind fun hcond => ?_
      refine ((hbody body rfl ha).mono fun hm => ?_).like.inScope.bind fun _ => .inl rfl
      exact .guard (run_eval_eq_ok.1 hcond).1 hm
  | store u b idx rhs =>
    obtain ⟨t, p, ht, hp, ⟨⟩⟩ := trace_store.1 h
    have hterm := ((ev.term_tallies st rhs).mono fun hm =>
      hhere (hm.mono (List.subset_append_left _ _))).gives ht
    have hplace := ((ev.place_tallies st b idx).mono fun hm =>
      hhere (hm.mono (List.subset_append_right _ _))).gives hp
    refine Ends.bind (.inl (run_get_eq_ok.2 ⟨rfl, rfl⟩)) fun _ => ?_
    refine (Ends.of_gives hterm st).bind fun _ => ?_
    refine Ends.bind (.inl (run_get_eq_ok.2 ⟨rfl, rfl⟩)) fun _ => ?_
    refine (Ends.of_gives hplace st).bind fun _ => ?_
    cases u <;> exact .inl rfl
  | alloc d =>
    obtain ⟨shape, size, hshape, hsize, ⟨⟩⟩ := trace_alloc.1 h
    have hextents : Gives (Meets c exec ev.MissesAt env st [.alloc d]) (env.shape d) shape :=
      ((ev.extents_tallies d.name (List.Subset.refl _)).mono hhere).gives hshape
    refine (Ends.of_gives hextents st).bind fun _ => ?_
    rw [Tensor.undefined?, hsize, Store.length_layout]
    exact .inl rfl
  | call name args =>
    obtain ⟨t, inner, a, ht, hlen, hinner, ha, ⟨⟩⟩ := trace_call.1 h
    have henter : Gives (Meets c exec ev.MissesAt env st [.call name args])
        (c.enter env name args) (inner, t.body) := by
      simp only [Catalog.enter, ht, hlen, ne_eq, not_true_eq_false, if_false]
      have hwindows : (t.params.zip args).flatMap (·.2.exprs) ⊆ args.flatMap (·.exprs) := by
        intro e he
        obtain ⟨⟨p, w⟩, hw, he⟩ := List.mem_flatMap.1 he
        exact List.mem_flatMap.2 ⟨w, (List.of_mem_zip hw).2, he⟩
      obtain hok | ⟨hover, hm⟩ := ((ev.enter_tallies [] hwindows).mono hhere).gives hinner
      · exact .inl (by rw [hok]; rfl)
      · exact .inr ⟨by rw [hover]; rfl, hm⟩
    refine (Ends.of_gives henter st).bind fun _ => ?_
    exact Ends.bind (.inl (hruns _ _ _ _ ha)) fun _ => .inl rfl

theorem Stmt.execAll_ends (hc : callee.Closed) (hruns : callee.Runs exec) (b : Block)
    (h : traceAll ev c callee env st.layout b = some (acts, env')) :
    Ends (Meets c exec ev.MissesAt env st b) (execAll c exec env b) st () (perform acts st) := by
  induction b using Block.induction generalizing env env' st acts with
  | nil =>
    obtain ⟨⟩ := traceAll_nil.1 h
    exact .inl rfl
  | cons s rest ihs ihrest =>
    obtain ⟨a, e, a', e', hs, hrest, ⟨⟩⟩ := traceAll_cons.1 h
    rw [← layout_perform] at hrest
    rw [perform_append]
    refine ((exec_ends_of_body hc hruns ihs hs).mono (·.append rest)).bind fun hexec => ?_
    exact (ihrest hrest).mono (.next hexec)

theorem Stmt.exec_ends (hc : callee.Closed) (hruns : callee.Runs exec)
    (h : s.trace ev c callee env st.layout = some (acts, env')) :
    Ends (Meets c exec ev.MissesAt env st [s]) (s.exec c exec env) st env' (perform acts st) :=
  exec_ends_of_body hc hruns (fun body _ => execAll_ends hc hruns body) h

theorem Block.not_meets_checked : ¬ Meets c exec Evaluator.checked.MissesAt env st b := by
  rintro ⟨path, env', st', s, -, -, e, -, hm⟩
  exact Evaluator.not_misses_checked hm

/-- **A statement that the machine can trace runs to its end.** -/
theorem Stmt.exec_of_trace (hc : callee.Closed) (hruns : callee.Runs exec)
    (h : s.trace .checked c callee env st.layout = some (acts, env')) :
    (s.exec c exec env).run.run st = (.ok env', perform acts st) :=
  (exec_ends hc hruns h).resolve_right fun h => not_meets_checked h.2

theorem Stmt.execAll_of_traceAll (hc : callee.Closed) (hruns : callee.Runs exec)
    (h : traceAll .checked c callee env st.layout b = some (acts, env')) :
    (execAll c exec env b).run.run st = (.ok (), perform acts st) :=
  (execAll_ends hc hruns b h).resolve_right fun h => not_meets_checked h.2

theorem Block.trace_runs (c : Catalog) (depth : Nat) :
    Callee.Runs (Block.trace c depth .checked) (Block.exec c depth : Env → Block → Exec α Unit) := by
  induction depth with
  | zero =>
    intro env b st acts h
    obtain ⟨⟨a, env'⟩, ha, rfl⟩ := Option.map_eq_some_iff.1 h
    rw [perform_scope]
    exact run_inScope_eq_ok.2 ⟨_, execAll_of_traceAll Callee.closed_none
      (by simp [Callee.Runs]) ha, rfl⟩
  | succ depth ih =>
    intro env b st acts h
    obtain ⟨⟨a, env'⟩, ha, rfl⟩ := Option.map_eq_some_iff.1 h
    rw [perform_scope]
    exact run_inScope_eq_ok.2 ⟨_, execAll_of_traceAll (trace_closed c depth .checked) ih ha, rfl⟩

end sound

end LoopNest
