import LoopNest.Proofs.Trace.OfRun

/-!
# Templates

What registering a template checks (`Catalog.of_register`), what that means for the templates of a
catalog (`Catalog.of_registerAll`), and the environment that the body of a template is run in.
-/

namespace LoopNest

variable {c c' : Catalog} {t : Proc} {env : Env}

/-! ## Templates of a catalog -/

theorem forM_eq_ok {ε β : Type} {f : β → Except ε Unit} {l : List β} (h : l.forM f = .ok ()) :
    ∀ b ∈ l, f b = .ok () := by
  induction l with
  | nil => simp
  | cons b l ih =>
    have hstep : (f b >>= fun _ => l.forM f) = .ok () := h
    obtain ⟨_, hb, hl⟩ := except_bind_eq_ok.1 hstep
    exact List.forall_mem_cons.2 ⟨hb, ih hl⟩

/-- What registering a template checks, and what it does. -/
theorem Catalog.register_eq_ok (h : c.register t = .ok c') :
    (∀ q ∈ t.params, checkParam t q = .ok ()) ∧ t.problems none = [] ∧
      c'.templates = c.templates ++ [t] := by
  simp only [register] at h
  split at h
  · obtain ⟨_, ⟨⟩, -⟩ := except_bind_eq_ok.1 h
  · split at h
    · obtain ⟨_, ⟨⟩, -⟩ := except_bind_eq_ok.1 h
    · rw [except_bind_eq_ok] at h
      obtain ⟨_, hparams, h⟩ := h
      split at h
      · cases h
      next hproblem =>
        cases h
        exact ⟨forM_eq_ok hparams, List.head?_eq_none_iff.1 hproblem, rfl⟩

/-- A template that was registered takes nothing but buffers, and is well formed. -/
theorem Catalog.of_register (h : c.register t = .ok c') :
    (∀ q ∈ t.params, ∃ d, q = .buffer d) ∧ t.problems none = [] := by
  obtain ⟨hparams, hproblems, -⟩ := register_eq_ok h
  refine ⟨fun q hq => ?_, hproblems⟩
  have hcheck := hparams q hq
  cases q with
  | size n => cases hcheck
  | buffer d => exact ⟨d, rfl⟩

/-- Every template of a catalog was there before, or was registered. -/
theorem Catalog.of_registerAll {ts : List Proc} (h : c.registerAll ts = (c', none)) :
    ∀ t ∈ c'.templates, t ∈ c.templates ∨ ∃ c₀ c₁ : Catalog, c₀.register t = .ok c₁ := by
  induction ts generalizing c with
  | nil =>
    cases h
    exact fun t ht => .inl ht
  | cons u ts ih =>
    rw [registerAll] at h
    split at h
    next c₁ hreg =>
      intro t ht
      obtain hold | hnew := ih h t ht
      · rw [(register_eq_ok hreg).2.2, List.mem_append, List.mem_singleton] at hold
        obtain hold | rfl := hold
        · exact .inl hold
        · exact .inr ⟨c, c₁, hreg⟩
      · exact .inr hnew
    · cases h

/-! ## Entering a template -/

/-- The windows that a statement passes to a template. -/
def Stmt.windows : Stmt → List Window
  | .call _ args => args
  | _ => []

/-- Where all windows can be taken, the parameters stand for their views and nothing else is bound. -/
theorem Env.enter_of_windows {l : List (Param × Window)}
    (hwindows : ∀ pw ∈ l, ∃ v, env.window pw.2 = .ok v) (hnodup : (l.map (·.1.name)).Nodup)
    (inner₀ : Env) :
    ∃ inner, env.enter inner₀ l = .ok inner ∧
      (∀ x, x ∉ l.map (·.1.name) → inner.lookup x = inner₀.lookup x) ∧
      ∀ pw ∈ l, ∃ v, env.window pw.2 = .ok v ∧ inner.lookup pw.1.name = some (.buffer v) := by
  induction l generalizing inner₀ with
  | nil => exact ⟨inner₀, rfl, by simp, by simp⟩
  | cons pw l ih =>
    obtain ⟨p, w⟩ := pw
    obtain ⟨⟨v, hv⟩, hrest⟩ := List.forall_mem_cons.1 hwindows
    obtain ⟨hnew, hnodup⟩ := List.nodup_cons.1 hnodup
    obtain ⟨inner, hinner, hkept, hbound⟩ := ih hrest hnodup (inner₀.bind p.name (.buffer v))
    refine ⟨inner, ?_, fun x hx => ?_, List.forall_mem_cons.2 ⟨⟨v, hv, ?_⟩, hbound⟩⟩
    · rw [Env.enter, hv]
      exact hinner
    · rw [List.map_cons, List.mem_cons, not_or] at hx
      rw [hkept x hx.2, Env.lookup_bind, if_neg hx.1]
    · rw [hkept _ hnew, Env.lookup_bind, if_pos rfl]

/-- The same for parameters of their own names, from the start. -/
theorem Env.enter_of_args {params : List Param} {args : List Window}
    (hlen : params.length = args.length) (hnodup : (params.map (·.name)).Nodup)
    (hwindows : ∀ w ∈ args, ∃ v, env.window w = .ok v) :
    ∃ inner, env.enter [] (params.zip args) = .ok inner ∧
      (∀ x ∉ params.map (·.name), inner.lookup x = none) ∧
      ∀ pw ∈ params.zip args, ∃ v, env.window pw.2 = .ok v ∧
        inner.lookup pw.1.name = some (.buffer v) := by
  have hnames : (params.zip args).map (·.1.name) = params.map (·.name) := by
    have hfirst := List.map_fst_zip (Nat.le_of_eq hlen)
    rw [← congrArg (List.map (·.name)) hfirst, List.map_map]
    rfl
  have hzip : ∀ pw ∈ params.zip args, ∃ v, env.window pw.2 = .ok v := fun pw hpw =>
    hwindows pw.2 (List.of_mem_zip hpw).2
  have hall := Env.enter_of_windows hzip (hnames ▸ hnodup) []
  rwa [hnames] at hall

end LoopNest
