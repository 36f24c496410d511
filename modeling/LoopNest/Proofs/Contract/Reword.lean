import LoopNest.Proofs.Contract.Calls
import LoopNest.Proofs.Trace.Reword

/-!
# Other words in a scope

What is said in other words is well scoped wherever these pass their checks (`Turns.wellScoped`). For
a renaming of buffers, with constants for some variables, that is so in scopes in which the new words
mean what the old ones meant (`Rewording.mapping_scoped`).
-/

namespace LoopNest

open Stmt Scope

variable {e : Expr} {v x : String}

namespace Rewording

variable (w : Rewording)

/-- Where `H` relates the scopes of the two blocks, what passes its check in the first one does so
reworded in the second one, and what is bound keeps the scopes related. -/
structure Scoped (templates : Templates) (H : Scope → Scope → Prop) : Prop where
  operands : ∀ op l r, w.index (.binary op l r) = .binary op (w.index l) (w.index r)
  index : ∀ {sc sc' e}, H sc sc' → sc.checkIndex e = [] → sc'.checkIndex (w.index e) = []
  value : ∀ {sc sc' x}, H sc sc' → sc.checkData (.var x) = [] →
    sc'.checkData (w.index (.var x)) = []
  access : ∀ {sc sc' b b' idx idx'}, H sc sc' → w.access b idx b' idx' →
    sc.checkAccess b idx = [] → sc'.checkAccess b' idx' = []
  call : ∀ {sc sc' t args args'}, H sc sc' → List.Forall₂ w.window args args' →
    sc.checkCall templates t args = [] → sc'.checkCall templates t args' = []
  bind_var : ∀ {sc sc' x}, H sc sc' → w.binds x → sc.isVisible x = false →
    sc'.isVisible x = false ∧ H (sc.addVar x) (sc'.addVar x)
  bind_buffer : ∀ {sc sc' d}, H sc sc' → w.binds d.name → sc.isVisible d.name = false →
    sc'.isVisible (w.name d.name) = false ∧ H (sc.addBuffer d)
      (sc'.addBuffer { d with name := w.name d.name, shape := d.shape.map w.index })
  omits : ∀ {sc sc' s}, H sc sc' → w.omits s → H (sc.after s) sc'

variable {w} {templates : Templates} {H : Scope → Scope → Prop}

namespace Scoped

variable {sc sc' : Scope} (hw : w.Scoped templates H) (h : H sc sc')

include hw h

theorem data {e' : Expr} (he : w.Data e e') (hcheck : sc.checkData e = []) :
    sc'.checkData e' = [] := by
  induction he with
  | var v => exact hw.value h hcheck
  | int n | float x => rfl
  | read hb => exact hw.access h hb hcheck
  | binary _ _ ihl ihr =>
    obtain ⟨hop, hl, hr⟩ := checkData_binary.1 hcheck
    exact checkData_binary.2 ⟨hop, ihl hl, ihr hr⟩
  | neg _ ih => exact ih hcheck

theorem condition (he : sc.checkCondition e = []) : sc'.checkCondition (w.index e) = [] := by
  induction e with
  | binary op l r ihl ihr =>
    rw [hw.operands]
    obtain ⟨_, _, heq, hl, hr⟩ | ⟨_, _, _, heq, hop, hl, hr⟩ := of_checkCondition he
    · cases heq
      exact List.append_eq_nil_iff.2 ⟨ihl hl, ihr hr⟩
    · cases heq
      have hboth := List.append_eq_nil_iff.2 ⟨hw.index h hl, hw.index h hr⟩
      cases op with
      | lt | le | gt | ge | eq => exact hboth
      | _ => cases hop
  | _ => cases he

end Scoped

/-- **A block in other words is well scoped** where the words are. -/
theorem Turns.wellScoped (hw : w.Scoped templates H) {b b' : Block} (ht : w.Turns b b')
    {sc sc' : Scope} (h : H sc sc') (hb : WellScopedAll templates sc b) :
    WellScopedAll templates sc' b' ∧ H (sc.afterAll b) (sc'.afterAll b') := by
  induction ht generalizing sc sc' with
  | nil => exact ⟨trivial, h⟩
  | loop hx _ _ ihbody ihrest =>
    obtain ⟨hbound, hnew⟩ := checkStmt_loop.1 hb.1.1
    obtain ⟨hnew', hbind⟩ := hw.bind_var h hx hnew
    refine (ihrest h hb.2).imp_left fun hrest => ⟨⟨?_, (ihbody hbind hb.1.2).1⟩, hrest⟩
    exact checkStmt_loop.2 ⟨hw.index h hbound, hnew'⟩
  | guard _ _ ihbody ihrest =>
    have hbody := (ihbody h hb.1.2).1
    exact (ihrest h hb.2).imp_left fun hrest => ⟨⟨hw.condition h hb.1.1, hbody⟩, hrest⟩
  | store haccess hdata _ ihrest =>
    obtain ⟨hcheck, hrhs⟩ := List.append_eq_nil_iff.1 hb.1
    have hstore := List.append_eq_nil_iff.2 ⟨hw.access h haccess hcheck, hw.data h hdata hrhs⟩
    exact (ihrest h hb.2).imp_left fun hrest => ⟨hstore, hrest⟩
  | alloc hx _ ihrest =>
    obtain ⟨hnew, hmem, hshape⟩ := checkStmt_alloc.1 hb.1
    obtain ⟨hnew', hbind⟩ := hw.bind_buffer h hx hnew
    refine (ihrest hbind hb.2).imp_left fun hrest => ⟨checkStmt_alloc.2 ⟨hnew', hmem, ?_⟩, hrest⟩
    exact List.forall_mem_map.2 fun e he => hw.index h (hshape e he)
  | call hargs _ ihrest =>
    exact (ihrest h hb.2).imp_left fun hrest => ⟨hw.call h hargs hb.1, hrest⟩
  | drop hs _ ihrest => exact ihrest (hw.omits h hs) hb.2

end Rewording

namespace Scope

variable {sc sc' : Scope}

/-- A change of the variables keeps index expressions if it keeps these. -/
theorem checkIndex_rebuilt {f : Expr → Expr} {r : String → String} (hf : Expr.Rebuilds f r)
    (hvar : ∀ v, sc.checkIndex (.var v) = [] → sc'.checkIndex (f (.var v)) = [])
    (he : sc.checkIndex e = []) : sc'.checkIndex (f e) = [] := by
  induction e with
  | var v => exact hvar v he
  | int n =>
    rw [hf.int]
    rfl
  | float x | read b idx => cases he
  | binary op l r ihl ihr =>
    obtain ⟨hop, hl, hr⟩ := checkIndex_binary.1 he
    rw [hf.binary]
    exact checkIndex_binary.2 ⟨hop, ihl hl, ihr hr⟩
  | neg e ih =>
    rw [hf.neg]
    exact ih he

end Scope

theorem Window.exprs_mapExprs (f : Expr → Expr) (w : Window) :
    (w.mapExprs f).exprs = w.exprs.map f := by
  show (w.dims.map _).flatMap _ = (w.dims.flatMap _).map f
  rw [List.flatMap_map, List.map_flatMap]
  refine congrArg (List.flatMap · w.dims) (funext fun d => ?_)
  cases d <;> rfl

/-! ## Renamed buffers -/

/-- What is visible in the first scope, all of it in `D`, has a counterpart in the second one, and
what is not visible is not visible there either, under neither name. -/
structure Scope.Reworded (f : Expr → Expr) (r : String → String) (D : String → Prop)
    (sc sc' : Scope) : Prop where
  known : ∀ {x}, sc.isVisible x = true → D x
  index : ∀ {x}, sc.isIndex x = true → (∃ n, f (.var x) = .int n) ∨ f (.var x) = .var x ∧
    sc'.isIndex x = true ∧ (sc.buffer? x = none → sc'.buffer? x = none)
  buffer : ∀ {x d}, sc.buffer? x = some d → ∃ d', sc'.buffer? (r x) = some d' ∧ d'.rank = d.rank
  hidden : ∀ {x}, D x → sc.isVisible x = false →
    sc'.isVisible x = false ∧ sc'.isVisible (r x) = false

theorem Scope.isVisible_eq_false_of_addVar {sc : Scope} :
    (sc.addVar v).isVisible x = false ↔ x ≠ v ∧ sc.isVisible x = false := by
  rw [← Bool.not_eq_true, sc.isVisible_addVar, not_or, Bool.not_eq_true]

theorem Scope.isVisible_eq_false_of_addBuffer {sc : Scope} {d : Decl} :
    (sc.addBuffer d).isVisible x = false ↔ x ≠ d.name ∧ sc.isVisible x = false := by
  rw [← Bool.not_eq_true, sc.isVisible_addBuffer, not_or, Bool.not_eq_true]

namespace Scope.Reworded

variable {f : Expr → Expr} {r : String → String} {D : String → Prop} {sc sc' : Scope}

/-- A loop variable that stays. -/
theorem addVar (hr : Renames D r) (h : sc.Reworded f r D sc') (hD : D v) (hv : f (.var v) = .var v)
    (hnew : sc.isVisible v = false) : (sc.addVar v).Reworded f r D (sc'.addVar v)  where
  known {x} hx := ((sc.isVisible_addVar v x).1 hx).elim (fun heq => heq ▸ hD) h.known
  index {x} hx := by
    obtain rfl | hx := (sc.isIndex_addVar v x).1 hx
    · have hnone : sc'.buffer? x = none := buffer?_eq_none (h.hidden hD hnew).1
      exact .inr ⟨hv, (sc'.isIndex_addVar x x).2 (.inl rfl), fun _ => hnone⟩
    · exact (h.index hx).imp_right fun ⟨hvar, hindex, hbuf⟩ =>
        ⟨hvar, (sc'.isIndex_addVar v x).2 (.inr hindex), hbuf⟩
  buffer hd := h.buffer hd
  hidden {x} hx hnone := by
    obtain ⟨hne, hnone⟩ := isVisible_eq_false_of_addVar.1 hnone
    obtain ⟨hx', hrx⟩ := h.hidden hx hnone
    refine ⟨isVisible_eq_false_of_addVar.2 ⟨hne, hx'⟩, isVisible_eq_false_of_addVar.2 ⟨?_, hrx⟩⟩
    intro heq
    exact hne ((hr.out hx (heq ▸ hD)).symm.trans heq)

/-- An allocation, under its new name. -/
theorem addBuffer (hr : Renames D r) (h : sc.Reworded f r D sc') {d d' : Decl} (hD : D d.name)
    (hname : d'.name = r d.name) (hrank : d'.rank = d.rank) :
    (sc.addBuffer d).Reworded f r D (sc'.addBuffer d') where
  known {x} hx := ((sc.isVisible_addBuffer d x).1 hx).elim (fun heq => heq ▸ hD) h.known
  index {x} hx := by
    refine (h.index hx).imp_right fun ⟨hvar, hindex, hbuf⟩ => ⟨hvar, hindex, fun hnone => ?_⟩
    have hne : d.name ≠ x := fun heq => by simp [buffer?_addBuffer, heq] at hnone
    rw [buffer?_addBuffer, if_neg hne] at hnone
    have hne' : d'.name ≠ x := fun heq => by
      have hDx : D x := h.known (isVisible_of_isIndex hx)
      rw [hname] at heq
      exact hne ((hr.out hD (heq ▸ hDx)).symm.trans heq)
    rw [buffer?_addBuffer, if_neg hne']
    exact hbuf hnone
  buffer {x e} he := by
    rw [buffer?_addBuffer] at he ⊢
    by_cases hx : d.name = x
    · rw [if_pos hx] at he
      cases he
      exact ⟨d', if_pos (hname.trans (congrArg r hx)), hrank⟩
    · rw [if_neg hx] at he
      have hne : d'.name ≠ r x := fun heq =>
        hx (hr.inj hD (h.known (isVisible_of_buffer? he)) (hname.symm.trans heq))
      rw [if_neg hne]
      exact h.buffer he
  hidden {x} hx hnone := by
    obtain ⟨hne, hnone⟩ := isVisible_eq_false_of_addBuffer.1 hnone
    obtain ⟨hx', hrx⟩ := h.hidden hx hnone
    rw [isVisible_eq_false_of_addBuffer, isVisible_eq_false_of_addBuffer, hname]
    refine ⟨⟨fun heq => hne ?_, hx'⟩, fun heq => hne (hr.inj hx hD heq), hrx⟩
    exact heq.trans (hr.out hD (heq ▸ hx))

variable (hf : Expr.Rebuilds f r) (h : sc.Reworded f r D sc')

include hf h

theorem checkIndex (he : sc.checkIndex e = []) : sc'.checkIndex (f e) = [] := by
  refine checkIndex_rebuilt hf (fun v hv => ?_) he
  obtain ⟨hbuf, hindex⟩ := checkIndex_var.1 hv
  obtain ⟨n, hn⟩ | ⟨hvar, hindex', hbuf'⟩ := h.index hindex
  · rw [hn]
    rfl
  · rw [hvar]
    exact checkIndex_var.2 ⟨hbuf' hbuf, hindex'⟩

theorem checkWindow {a : Window} (ha : sc.checkWindow a = []) :
    sc'.checkWindow (Window.mapExprs f { a with buf := r a.buf }) = [] := by
  obtain ⟨⟨d, hd, hrank⟩, hexprs⟩ := checkWindow_eq_nil.1 ha
  obtain ⟨d', hd', hrank'⟩ := h.buffer hd
  refine checkWindow_eq_nil.2 ⟨⟨d', hd', ?_⟩, ?_⟩
  · rw [hrank', hrank, Window.mapExprs, List.length_map]
  · rw [Window.exprs_mapExprs]
    exact List.forall_mem_map.2 fun e he => h.checkIndex hf (hexprs e he)

end Scope.Reworded

/-- **Other names keep a block well scoped**, where they mean the same. -/
theorem Rewording.mapping_scoped {f : Expr → Expr} {r : String → String} {D : String → Prop}
    (hf : Expr.Rebuilds f r) (hr : Renames D r) :
    (mapping f r D).Scoped none (Reworded f r D) where
  operands := hf.binary
  index h := h.checkIndex hf
  value h hx := by
    obtain ⟨n, hn⟩ | ⟨hvar, hindex, -⟩ := h.index (Scope.checkData_var.1 hx)
    · show Scope.checkData _ (f _) = []
      rw [hn]
      rfl
    · show Scope.checkData _ (f _) = []
      rw [hvar]
      exact Scope.checkData_var.2 hindex
  access h hb hcheck := by
    obtain ⟨rfl, rfl⟩ := hb
    obtain ⟨⟨d, hd, hrank⟩, hidx⟩ := checkAccess_eq_nil.1 hcheck
    obtain ⟨d', hd', hrank'⟩ := h.buffer hd
    refine checkAccess_eq_nil.2 ⟨⟨d', hd', by rw [hrank', hrank, List.length_map]⟩, ?_⟩
    exact List.forall_mem_map.2 fun e he => h.checkIndex hf (hidx e he)
  call {sc sc' t args args'} h hargs hcheck := by
    rw [checkCall, List.append_nil, List.flatMap_eq_nil_iff] at hcheck ⊢
    intro a' ha'
    obtain ⟨a, ha, rfl⟩ := exists_of_forall₂ hargs ha'
    exact h.checkWindow hf (hcheck a ha)
  bind_var h hx hnew := ⟨(h.hidden hx.1 hnew).1, h.addVar hr hx.1 hx.2.1 hnew⟩
  bind_buffer h hx hnew := ⟨(h.hidden hx.1 hnew).2, h.addBuffer hr hx.1 rfl (List.length_map ..)⟩
  omits _ hs := hs.elim

theorem Proc.problems_none {p : Proc} {templates : Templates} (h : p.problems templates = []) :
    p.problems none = [] := by
  cases templates with
  | none => exact h
  | some find => exact (Proc.problems_some.1 h).1

end LoopNest
