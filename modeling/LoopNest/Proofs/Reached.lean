import LoopNest.Proofs.AffineValue
import LoopNest.Proofs.Context
import LoopNest.Proofs.Resolution

/-!
# The states of a valid kernel

In every state that the run of a valid kernel comes to, the environment binds what the scope there
promises, its buffers stand for whole tensors of their own (`Proc.Reaches.fits`), and these have the
types that the buffers are declared with (`Proc.Reaches.typed`).
-/

namespace LoopNest

open Exec Stmt Scope

variable {s : Stmt} {sc : Scope} {acts : List Action} {seen : List String}

/-! ## Running keeps environments in order -/

section runs

variable {α : Type} [Element α] {c : Catalog} {callee : Callee} {exec : Env → Block → Exec α Unit}
  {env env' : Env} {st st' : Store α} {b : Block} {path : Path}
variable {templates : Templates} {x : String}

/-- A statement leaves an environment that fits the scope after it. -/
theorem Env.Fits.after (hc : callee.Closed) {lay : Layout} (hfits : env.Fits sc)
    (hscope : s.WellScoped templates sc)
    (ht : s.trace .checked c callee env lay = some (acts, env')) : env'.Fits (sc.after s) := by
  cases s with
  | alloc d =>
    obtain ⟨shape, size, -, -, ⟨⟩⟩ := trace_alloc.1 ht
    exact hfits.bind_buffer (checkStmt_alloc.1 hscope.check).1 _
  | _ =>
    obtain ⟨-, rfl⟩ := (trace_grows hc ht).1 rfl
    exact hfits

/-- **What a run comes to fits its scope.** -/
theorem Block.Reaches.fits (hc : callee.Closed) (hcov : callee.Covers exec)
    (h : Block.Reaches c exec env st b path env' st') (hscope : WellScopedAll templates sc b)
    (hfits : env.Fits sc) (htidy : env.Tidy seen st.layout) :
    ∃ sc' seen' rest, b.from? path = some rest ∧ WellScopedAll templates sc' rest ∧
      env'.Fits sc' ∧ env'.Tidy seen' st'.layout := by
  refine (h.along hc hcov
    (I := fun env lay b => ∃ sc seen, WellScopedAll templates sc b ∧ env.Fits sc ∧
      env.Tidy seen lay) ?_ ?_ ?_ ⟨sc, seen, hscope, hfits, htidy⟩).elim
    fun rest ⟨hfrom, sc', seen', h⟩ => ⟨sc', seen', rest, hfrom, h⟩
  · rintro env env' lay s rest acts ht ⟨sc, seen, hscope, hfits, htidy⟩
    exact ⟨_, _, hscope.2, hfits.after hc hscope.1 ht, htidy.trace hc ht⟩
  · rintro env lay h body rest n - ⟨sc, seen, hscope, hfits, htidy⟩
    exact ⟨_, _, hscope.1.2, hfits.bind_var h.var n, htidy.bind_index h.var n⟩
  · rintro env lay e body rest ⟨sc, seen, hscope, hfits, htidy⟩
    exact ⟨sc, seen, hscope.1.2, hfits, htidy⟩

/-- A run keeps what is bound under a name that no statement of the block binds. -/
theorem Block.Reaches.lookup_of_not_bound (hc : callee.Closed) (hcov : callee.Covers exec)
    (h : Block.Reaches c exec env st b path env' st') (hx : x ∉ b.binders) :
    env'.lookup x = env.lookup x := by
  refine (h.along hc hcov (I := fun e _ b => x ∉ b.binders ∧ e.lookup x = env.lookup x) ?_ ?_ ?_
    ⟨hx, rfl⟩).elim fun _ h => h.2.2
  · rintro e e' lay s rest acts ht ⟨hx, hlookup⟩
    rw [binders_cons, List.mem_append, not_or] at hx
    refine ⟨hx.2, ?_⟩
    cases s with
    | alloc d =>
      obtain ⟨shape, size, -, -, ⟨⟩⟩ := trace_alloc.1 ht
      have hne : x ≠ d.name := fun h => hx.1 (by simp [Stmt.nested, binds?, h])
      rw [Env.lookup_bind, if_neg hne, hlookup]
    | _ => rw [((trace_grows hc ht).1 rfl).2, hlookup]
  · rintro e lay h body rest n - ⟨hx, hlookup⟩
    rw [binders_cons, List.mem_append, not_or] at hx
    have hinner : x ≠ h.var ∧ x ∉ binders body := by
      simpa [Stmt.nested, binds?, binders, nested] using hx.1
    exact ⟨hinner.2, by rw [Env.lookup_bind, if_neg hinner.1, hlookup]⟩
  · rintro e lay cond body rest ⟨hx, hlookup⟩
    rw [binders_cons, List.mem_append, not_or] at hx
    exact ⟨by simpa [Stmt.nested, binds?, binders, nested] using hx.1, hlookup⟩

/-- **A run keeps what is bound when it starts.** All that is bound on the way is new. -/
theorem Block.Reaches.lookup (hc : callee.Closed) (hcov : callee.Covers exec)
    (h : Block.Reaches c exec env st b path env' st') (hfresh : FreshAll seen b) (hx : x ∈ seen) :
    env'.lookup x = env.lookup x :=
  h.lookup_of_not_bound hc hcov (hfresh.not_mem_binders hx)

end runs

/-! ## Kernels -/

variable {α : Type} {args : Args α} {p : Proc} {templates : Templates} {c : Catalog}
  {path : Path} {env : Env} {st : Store α}

theorem Args.fits_of_bindParams {frame : Frame α} (hvalid : p.problems templates = [])
    (h : args.bindParams p.params = .ok frame) : frame.env.Fits p.scope := by
  have hend := keeps_of_bindParams
    (P := fun rest f => ∃ sc, rest.foldl addParam sc = p.scope ∧
      checkParams p.isTemplate sc rest = [] ∧ f.env.Fits sc) h
    ⟨{}, rfl, (Proc.problems_eq_nil.1 hvalid).1, ⟨fun v hv => by simp [isIndex] at hv, by simp⟩⟩ @?_
  · obtain ⟨sc, hscope, -, hfits⟩ := hend
    exact hscope ▸ hfits
  · rintro q rest f f' hq ⟨sc, hscope, hcheck, hf⟩
    obtain ⟨hnew, -, hrest⟩ := of_checkParams hcheck
    refine ⟨sc.addParam q, hscope, hrest, ?_⟩
    cases hq with
    | size => exact hf.bind_size _ _
    | buffer => exact hf.bind_buffer hnew _

/-- **The states of a valid kernel.** -/
theorem Proc.Reaches.fits [Element α] (hvalid : p.problems templates = [])
    (h : p.Reaches c args path env st) :
    ∃ sc seen rest, p.body.from? path = some rest ∧ WellScopedAll templates sc rest ∧
      env.Fits sc ∧ env.Tidy seen st.layout := by
  obtain ⟨frame, hframe, hreach⟩ := h
  exact hreach.fits c.calls_closed c.calls_covers (Proc.wellScoped hvalid)
    (Args.fits_of_bindParams hvalid hframe) (Args.tidy_of_bindParams hframe)

/-- A name that is not bound in the kernel stands for nothing. -/
theorem Proc.Reaches.lookup_eq_none [Element α] (h : p.Reaches c args path env st) {x : String}
    (hx : x ∉ p.boundNames) : env.lookup x = none := by
  obtain ⟨frame, hframe, hreach⟩ := h
  obtain ⟨hparams, hbinders⟩ := not_or.1 (mt List.mem_append.2 hx)
  rw [hreach.lookup_of_not_bound c.calls_closed c.calls_covers hbinders]
  exact (Args.tidy_of_bindParams hframe).bound x hparams

/-- A bound that is positive for all sizes is so wherever a run comes to, for sizes are what they were
when the run started. -/
theorem Proc.Reaches.one_le_of_isPositive [Element α] {bound : Expr} {n : Word}
    (h : p.Reaches c args path env st) (hfresh : FreshAll (p.params.map (·.name)) p.body)
    (hpos : bound.isPositive p.sizes = true) (hn : Evaluator.checked.eval env bound = some n) :
    1 ≤ n.toInt := by
  refine Expr.one_le_of_isPositive hpos (fun x hx k hk => ?_) (Evaluator.checked.to_wide hn)
  obtain ⟨frame, hframe, hreach⟩ := h
  have hparam : x ∈ p.params.map (·.name) := by
    obtain ⟨q, hq, hqx⟩ := List.mem_filterMap.1 hx
    refine List.mem_map.2 ⟨q, hq, ?_⟩
    cases q <;> simp_all [Param.name]
  have hlook := hreach.lookup c.calls_closed c.calls_covers hfresh hparam
  rw [Env.value?, hlook] at hk
  exact Args.one_le_of_bindParams hframe hk

/-! ## Declared types -/

/-- Every buffer is declared, and stands for a tensor of the type it is declared with. -/
def Env.Typed (decl? : String → Option Decl) (env : Env) (lay : Layout) : Prop :=
  ∀ x v, env.view? x = some v → ∃ d, decl? x = some d ∧ (lay[v.tensor]?).map (·.ty) = some d.ty

namespace Env.Typed

variable {decl? decl?' : String → Option Decl} {env : Env} {lay : Layout}

theorem bind_index (h : env.Typed decl? lay) {x : String} (hother : ∀ y, y ≠ x → decl?' y = decl? y)
    (n : Word) : Env.Typed decl?' (env.bind x (.index n)) lay := by
  intro y v hv
  rw [view?_bind] at hv
  split at hv
  · cases hv
  next hy => rw [hother y hy]; exact h y v hv

/-- A new tensor of the declared type under the declared name. -/
theorem bind_whole (h : env.Typed decl? lay) {d : Decl} (hnew : decl?' d.name = some d)
    (hother : ∀ x, x ≠ d.name → decl?' x = decl? x) {s : Slot} (hs : s.ty = d.ty)
    (shape : List Nat) :
    Env.Typed decl?' (env.bind d.name (.buffer (.whole lay.length d.name shape))) (lay ++ [s]) := by
  intro x v hv
  rw [view?_bind] at hv
  by_cases hx : x = d.name
  · obtain rfl : View.whole lay.length d.name shape = v := by simpa [hx] using hv
    exact ⟨d, hx ▸ hnew, by simp [View.whole, hs]⟩
  · obtain ⟨d', hd', hty⟩ := h x v (by simpa [hx] using hv)
    obtain ⟨slot, hslot, hty⟩ := Option.map_eq_some_iff.1 hty
    have hlt := (List.getElem?_eq_some_iff.1 hslot).1
    exact ⟨d', (hother x hx).trans hd', by
      rw [List.getElem?_append_left hlt, hslot, Option.map_some, hty]⟩

end Env.Typed

section types

variable {α : Type} [Element α] {c : Catalog} {callee : Callee} {exec : Env → Block → Exec α Unit}
variable {decl? : String → Option Decl}

theorem Env.Typed.trace (hc : callee.Closed) {env env' : Env} {lay : Layout}
    (htyped : env.Typed decl? lay) {ev : Evaluator}
    (h : s.trace ev c callee env lay = some (acts, env')) :
    env'.Typed (fun x => (s.decl?.filter (·.name = x)).or (decl? x)) (lay.after acts) := by
  cases s with
  | alloc d =>
    obtain ⟨shape, size, -, -, ⟨⟩⟩ := trace_alloc.1 h
    refine htyped.bind_whole ?_ (fun x hx => ?_) rfl shape
    · simp [Stmt.decl?, Option.filter]
    · simp [Stmt.decl?, Option.filter, Ne.symm hx]
  | _ =>
    obtain ⟨hclose, rfl⟩ := (trace_grows hc h).1 rfl
    rw [hclose.after]
    exact htyped

/-- **What a run comes to is typed as declared.** The induction is along the run. -/
theorem Block.Reaches.typed (hc : callee.Closed) (hcov : callee.Covers exec) {env env' : Env}
    {st st' : Store α} {b : Block} {path : Path} (h : Block.Reaches c exec env st b path env' st')
    (htyped : env.Typed decl? st.layout) :
    env'.Typed (fun x => Proc.visibleDecl?.go x (decl? x) path b) st'.layout := by
  induction h generalizing decl? with
  | here => simpa only [Proc.visibleDecl?.go_here] using htyped
  | next hrun hreach ih =>
    obtain ⟨acts, ht, rfl⟩ := trace_of_exec .checked hc hcov hrun
    have htyped' := htyped.trace hc ht
    rw [← layout_perform] at htyped'
    simpa only [Proc.visibleDecl?.go_next] using ih htyped'
  | @loop env env'' st st₁ st'' hd body rest n k path hbound hk hrounds hreach ih =>
    have hlay := layout_of_countUp (fun _ _ _ => layout_of_round hc hcov) hrounds
    have htyped' := htyped.bind_index (x := hd.var) (fun _ _ => rfl) (Int64.ofNat k)
    rw [← hlay] at htyped'
    have hgo := fun x => Proc.visibleDecl?.go_inside x (decl? x)
      (rfl : (Stmt.loop hd body).body? = some body) rest hreach.path_ne_nil
    simpa only [hgo] using ih htyped'
  | @guard env env'' st st'' e body rest path hcond hreach ih =>
    have hgo := fun x => Proc.visibleDecl?.go_inside x (decl? x)
      (rfl : (Stmt.guard e body).body? = some body) rest hreach.path_ne_nil
    simpa only [hgo] using ih htyped

end types

/-- The arguments of a kernel have the types of its parameters. -/
theorem Args.typed_of_bindParams {frame : Frame α} (h : args.bindParams p.params = .ok frame) :
    frame.env.Typed p.scope.buffer? frame.store.layout := by
  have hend := keeps_of_bindParams
    (P := fun rest f => ∃ sc, rest.foldl addParam sc = p.scope ∧
      f.env.Typed sc.buffer? f.store.layout) h
    ⟨{}, rfl, fun x v h => by simp [Env.view?] at h⟩ @?_
  · obtain ⟨sc, hscope, htyped⟩ := hend
    exact hscope ▸ htyped
  · rintro q rest f f' hq ⟨sc, hscope, hf⟩
    refine ⟨sc.addParam q, hscope, ?_⟩
    cases hq with
    | size => exact hf.bind_index (fun _ _ => rfl) _
    | @buffer d t _ _ _ hty =>
      have hlay : Store.layout (f.store ++ [t]) = f.store.layout ++ [t.slot] := by
        simp [Store.layout]
      rw [hlay, ← Store.length_layout]
      exact hf.bind_whole (by simp [addParam, buffer?_addBuffer])
        (fun x hx => by simp [addParam, buffer?_addBuffer, hx.symm]) hty t.shape

/-- **The tensors of a valid kernel have the declared types** wherever its run comes to. -/
theorem Proc.Reaches.typed [Element α] (hvalid : p.problems templates = [])
    (h : p.Reaches c args path env st) : env.Typed (p.visibleDecl? path) st.layout := by
  obtain ⟨frame, hframe, hreach⟩ := h
  have hparams := funext (Proc.buffer?_scope (Proc.nodup_params hvalid))
  exact hreach.typed c.calls_closed c.calls_covers (hparams ▸ Args.typed_of_bindParams hframe)

end LoopNest
