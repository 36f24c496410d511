import LoopNest.Proofs.Trace.Basic

/-!
# Layouts along a trace

Running statements only adds tensors, and a scope gives back what was added in it. So all rounds of a
loop start from the same layout, and nothing that a trace does reaches behind the tensors it started
with.
-/

namespace LoopNest

open Stmt

/-- The actions only add tensors to the layout, and never give back one that was there. -/
structure Grows (lay : Layout) (acts : List Action) : Prop where
  after : ∃ ext, lay.after acts = lay ++ ext
  marks : ∀ m, Action.release m ∈ acts → lay.length ≤ m

/-- The actions leave the layout as it was, and never give back a tensor that was there. -/
structure Closes (lay : Layout) (acts : List Action) : Prop where
  after : lay.after acts = lay
  marks : ∀ m, Action.release m ∈ acts → lay.length ≤ m

variable {env env' : Env} {lay : Layout} {acts : List Action}

theorem Closes.grows (h : Closes lay acts) : Grows lay acts :=
  ⟨⟨[], by simp [h.after]⟩, h.marks⟩

theorem Closes.nil (lay : Layout) : Closes lay [] := ⟨rfl, by simp⟩

theorem Closes.append {acts' : List Action} (h : Closes lay acts) (h' : Closes lay acts') :
    Closes lay (acts ++ acts') := by
  refine ⟨by rw [Layout.after_append, h.after, h'.after], fun m hm => ?_⟩
  obtain hm | hm := List.mem_append.1 hm
  · exact h.marks m hm
  · exact h'.marks m hm

theorem Closes.flatMap {ι : Type} {l : List ι} {g : ι → List Action} (h : ∀ k ∈ l, Closes lay (g k)) :
    Closes lay (l.flatMap g) := by
  induction l with
  | nil => exact .nil lay
  | cons k l ih =>
    exact (h k (.head _)).append (ih fun j hj => h j (.tail _ hj))

theorem Grows.append {acts' : List Action} (h : Grows lay acts) (h' : Grows (lay.after acts) acts') :
    Grows lay (acts ++ acts') := by
  obtain ⟨⟨ext, hext⟩, hmarks⟩ := h
  obtain ⟨⟨ext', hext'⟩, hmarks'⟩ := h'
  refine ⟨⟨ext ++ ext', by rw [Layout.after_append, hext', hext, List.append_assoc]⟩, ?_⟩
  intro m hm
  obtain hm | hm := List.mem_append.1 hm
  · exact hmarks m hm
  · have := hmarks' m hm
    rw [hext, List.length_append] at this
    omega

theorem Grows.length_le_after (h : Grows lay acts) : lay.length ≤ (lay.after acts).length := by
  obtain ⟨ext, hext⟩ := h.after
  rw [hext, List.length_append]
  exact Nat.le_add_right _ _

theorem Grows.scope (h : Grows lay acts) : Closes lay (scope lay acts) := by
  obtain ⟨⟨ext, hext⟩, hmarks⟩ := h
  refine ⟨by simp [LoopNest.scope, hext, Action.relayout], fun m hm => ?_⟩
  obtain hm | hm := List.mem_append.1 hm
  · exact hmarks m hm
  · simp only [List.mem_singleton, Action.release.injEq] at hm
    omega

/-- A callee that leaves no tensors behind. -/
def Callee.Closed (callee : Callee) : Prop :=
  ∀ (env : Env) (lay : Layout) (b : Block) (acts : List Action),
    callee env lay b = some acts → Closes lay acts

theorem Callee.closed_none : Callee.Closed fun _ _ _ => none := by simp [Callee.Closed]

variable {ev : Evaluator} {c : Catalog} {callee : Callee}

/-- Only an allocation changes layout and environment, and it only adds to the layout. Stated for a
statement whose body, if it has one, only adds. -/
theorem Stmt.trace_grows_of_body (hc : callee.Closed) {s : Stmt}
    (hbody : ∀ body, s.body? = some body → ∀ {env env' lay acts},
      traceAll ev c callee env lay body = some (acts, env') → Grows lay acts)
    (h : s.trace ev c callee env lay = some (acts, env')) :
    (s.decl? = none → Closes lay acts ∧ env' = env) ∧ Grows lay acts := by
  have hclosed : Closes lay acts ∧ env' = env →
      (s.decl? = none → Closes lay acts ∧ env' = env) ∧ Grows lay acts :=
    fun h => ⟨fun _ => h, h.1.grows⟩
  cases s with
  | loop hd body =>
    apply hclosed
    obtain ⟨n, g, -, hg, ⟨⟩⟩ := trace_loop.1 h
    refine ⟨Closes.flatMap fun k hk => ?_, rfl⟩
    obtain ⟨e, hk⟩ := hg k (List.mem_range.1 hk)
    exact (hbody body rfl hk).scope
  | guard e body =>
    apply hclosed
    obtain ⟨-, ⟨⟩⟩ | ⟨-, a, env', ha, ⟨⟩⟩ := trace_guard.1 h
    · exact ⟨.nil lay, rfl⟩
    · exact ⟨(hbody body rfl ha).scope, rfl⟩
  | store u b idx rhs =>
    apply hclosed
    obtain ⟨t, p, -, -, ⟨⟩⟩ := trace_store.1 h
    exact ⟨⟨rfl, by simp⟩, rfl⟩
  | alloc d =>
    obtain ⟨shape, size, -, -, ⟨⟩⟩ := trace_alloc.1 h
    exact ⟨by simp [decl?], ⟨[⟨d.ty, shape, size⟩], rfl⟩, by simp⟩
  | call name args =>
    apply hclosed
    obtain ⟨t, inner, a, -, -, -, ha, ⟨⟩⟩ := trace_call.1 h
    exact ⟨hc _ _ _ _ ha, rfl⟩

/-- **Running statements only adds tensors.** -/
theorem Stmt.traceAll_grows (hc : callee.Closed) (b : Block)
    (h : traceAll ev c callee env lay b = some (acts, env')) : Grows lay acts := by
  induction b using Block.induction generalizing env env' lay acts with
  | nil =>
    obtain ⟨⟩ := traceAll_nil.1 h
    exact (Closes.nil lay).grows
  | cons s rest ihs ihrest =>
    obtain ⟨a, e, a', e', hs, hrest, ⟨⟩⟩ := traceAll_cons.1 h
    exact (trace_grows_of_body hc ihs hs).2.append (ihrest hrest)

theorem Stmt.trace_grows (hc : callee.Closed) {s : Stmt}
    (h : s.trace ev c callee env lay = some (acts, env')) :
    (s.decl? = none → Closes lay acts ∧ env' = env) ∧ Grows lay acts :=
  trace_grows_of_body hc (fun body _ => traceAll_grows hc body) h

theorem Stmt.scope_traceAll_closes (hc : callee.Closed) {b : Block}
    (h : traceAll ev c callee env lay b = some (acts, env')) : Closes lay (scope lay acts) :=
  (traceAll_grows hc b h).scope

theorem Block.trace_closed (c : Catalog) (depth : Nat) (ev : Evaluator) :
    Callee.Closed (Block.trace c depth ev) := by
  induction depth generalizing ev with
  | zero =>
    intro env lay b acts h
    obtain ⟨⟨a, env'⟩, ha, rfl⟩ := Option.map_eq_some_iff.1 h
    exact scope_traceAll_closes Callee.closed_none ha
  | succ depth ih =>
    intro env lay b acts h
    obtain ⟨⟨a, env'⟩, ha, rfl⟩ := Option.map_eq_some_iff.1 h
    exact scope_traceAll_closes (ih .checked) ha

end LoopNest
