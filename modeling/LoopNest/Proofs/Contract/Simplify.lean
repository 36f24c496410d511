import LoopNest.Proofs.Contract.Reword
import LoopNest.Proofs.Contract.Steps
import LoopNest.Proofs.Simplify.Blocks

/-!
# Simplification keeps kernels well formed

A simplified kernel is well formed if the kernel was, with all of its calls. Two changes of scope are
behind this. The variables of inlined loops are no longer bound, but nothing mentions them any more;
and allocations are left out with all that could touch them.
-/

namespace LoopNest

open Stmt Scope LoopNest.Affine

variable {sc sc' : Scope} {zeros gone : List String}
variable {e : Expr} {x t : String} {d : Decl} {args : List Window}

/-! ## Index expressions -/

namespace Scope

theorem checkIndex_folds {e' : Expr} (hf : e.Folds e') (h : sc.checkIndex e = []) :
    sc.checkIndex e' = [] := by
  cases hf with
  | kept | neg_neg => exact h
  | literals | zero_mul | mul_zero | mod_one | literal => rfl
  | zero_add | one_mul => exact (checkIndex_binary.1 h).2.2
  | add_zero | sub_zero | mul_one | div_one => exact (checkIndex_binary.1 h).2.1

theorem checkIndex_fold (h : sc.checkIndex e = []) : sc.checkIndex e.fold = [] := by
  induction e with
  | binary op l r ihl ihr =>
    obtain ⟨hop, hl, hr⟩ := checkIndex_binary.1 h
    exact checkIndex_folds (Expr.folds_foldBinary ..) (checkIndex_binary.2 ⟨hop, ihl hl, ihr hr⟩)
  | neg e ih => exact checkIndex_folds (Expr.folds_neg e) (ih h)
  | _ => exact h

theorem checkIndex_spells {ts : List (String × Word)} {k : Word} (h : Spells ts k e)
    (hts : ∀ t ∈ ts, sc.checkIndex (.var t.1) = []) : sc.checkIndex e = [] := by
  have hterm : ∀ {v : String} {c : Word} {t : Expr}, Product v c t → sc.checkIndex (.var v) = [] →
      sc.checkIndex t = [] := by
    rintro v c t (_ | _) hv
    · exact hv
    · exact checkIndex_binary.2 ⟨rfl, rfl, hv⟩
  induction h with
  | constant => rfl
  | lead ht => exact hterm ht (hts _ (.head _))
  | negated v => exact hts _ (.head _)
  | plus _ ht ih | minus _ ht _ ih =>
    rw [List.forall_mem_append, List.forall_mem_singleton] at hts
    exact checkIndex_binary.2 ⟨rfl, ih hts.1, hterm ht hts.2⟩
  | plusConstant _ _ ih | minusConstant _ _ ih => exact checkIndex_binary.2 ⟨rfl, ih hts, rfl⟩

theorem checkIndex_toExpr {a : Affine} (h : ∀ v ∈ a.vars, sc.checkIndex (.var v) = []) :
    sc.checkIndex a.toExpr = [] :=
  checkIndex_spells a.spells_toExpr fun t ht => h t.1 (List.mem_map_of_mem ht)

theorem checkIndex_simplifyIndex (h : sc.checkIndex e = []) :
    sc.checkIndex e.simplifyIndex = [] := by
  have hfold := checkIndex_fold h
  unfold Expr.simplifyIndex
  split
  next a ha =>
    refine checkIndex_toExpr fun v hv => checkIndex_var_of_mem hfold ?_
    exact (ofExpr?_nodup ha).2 v ((List.Sublist.map _ List.filter_sublist).subset hv)
  · exact hfold

end Scope

/-! ## Inlined loops -/

/-- What an access or a call looks at: the rank and the kind of a buffer. -/
def Decl.outline (d : Decl) : Nat × Scalar × Space := (d.rank, d.kind)

/-- The second scope is the first one without the variables of inlined loops, `zeros`. -/
structure Scope.Inlines (zeros : List String) (sc sc' : Scope) : Prop where
  visible : ∀ x, sc'.isVisible x = true → sc.isVisible x = true
  index : ∀ v ∉ zeros, sc.isIndex v = true → sc'.isIndex v = true
  buffer : ∀ x, (sc'.buffer? x).map (·.outline) = (sc.buffer? x).map (·.outline)

/-- An expression with 0 for the variables of inlined loops, in its simplest form. -/
def Expr.inlined (zeros : List String) (e : Expr) : Expr := (e.zeroVars zeros).simplifyIndex

namespace Scope.Inlines

variable (h : sc.Inlines zeros sc')

include h

theorem kinds_eq : sc'.kinds = sc.kinds := by
  funext x
  have hx := congrArg (Option.map Prod.snd) (h.buffer x)
  rwa [Option.map_map, Option.map_map] at hx

theorem buffer_eq_none (hx : sc.buffer? x = none) : sc'.buffer? x = none := by
  have heq := h.buffer x
  rw [hx] at heq
  exact Option.map_eq_none_iff.1 heq

theorem buffer_eq_some (hd : sc.buffer? x = some d) :
    ∃ d', sc'.buffer? x = some d' ∧ d'.rank = d.rank := by
  have heq := h.buffer x
  rw [hd] at heq
  obtain ⟨d', hd', houtline⟩ := Option.map_eq_some_iff.1 heq
  exact ⟨d', hd', congrArg Prod.fst houtline⟩

theorem not_visible (hx : sc.isVisible x = false) : sc'.isVisible x = false :=
  Bool.eq_false_iff.2 (mt (h.visible x) (Bool.eq_false_iff.1 hx))

theorem addVar (v : String) : (sc.addVar v).Inlines zeros (sc'.addVar v) where
  visible x hx := (sc.isVisible_addVar v x).2 (((sc'.isVisible_addVar v x).1 hx).imp_right (h.visible x))
  index x hx hi := (sc'.isIndex_addVar v x).2 (((sc.isIndex_addVar v x).1 hi).imp_right (h.index x hx))
  buffer x := h.buffer x

theorem inline (v : String) : (sc.addVar v).Inlines (v :: zeros) sc' where
  visible x hx := (sc.isVisible_addVar v x).2 (.inr (h.visible x hx))
  index x hx hi := by
    rw [List.mem_cons, not_or] at hx
    exact h.index x hx.2 (((sc.isIndex_addVar v x).1 hi).resolve_left hx.1)
  buffer x := h.buffer x

theorem addBuffer {d' : Decl} (hname : d'.name = d.name) (houtline : d'.outline = d.outline) :
    (sc.addBuffer d).Inlines zeros (sc'.addBuffer d') where
  visible x hx := by
    rw [isVisible_addBuffer] at hx ⊢
    exact hx.imp (fun heq => heq.trans hname) (h.visible x)
  index x hx hi := h.index x hx hi
  buffer x := by
    rw [buffer?_addBuffer, buffer?_addBuffer, hname]
    split
    · exact congrArg some houtline
    · exact h.buffer x

theorem checkIndex_zeroVars (he : sc.checkIndex e = []) :
    sc'.checkIndex (e.zeroVars zeros) = [] := by
  refine checkIndex_rebuilt (.rebuild _ id) (fun v hv => ?_) he
  obtain ⟨hbuffer, hindex⟩ := checkIndex_var.1 hv
  show sc'.checkIndex (if zeros.contains v then .int 0 else .var v) = []
  split
  · rfl
  next hv =>
    have hv : v ∉ zeros := by simpa using hv
    exact checkIndex_var.2 ⟨h.buffer_eq_none hbuffer, h.index v hv hindex⟩

theorem checkIndex (he : sc.checkIndex e = []) : sc'.checkIndex (e.inlined zeros) = [] :=
  checkIndex_simplifyIndex (h.checkIndex_zeroVars he)

theorem checkAccess {b : String} {idx : List Expr} (hb : sc.checkAccess b idx = []) :
    sc'.checkAccess b (idx.map (·.inlined zeros)) = [] := by
  obtain ⟨⟨d, hd, hrank⟩, hidx⟩ := checkAccess_eq_nil.1 hb
  obtain ⟨d', hd', hrank'⟩ := h.buffer_eq_some hd
  refine checkAccess_eq_nil.2 ⟨⟨d', hd', ?_⟩, List.forall_mem_map.2 fun e he => ?_⟩
  · rw [hrank', hrank, List.length_map]
  · exact h.checkIndex (hidx e he)

theorem checkData (he : sc.checkData e = []) :
    sc'.checkData (e.zeroVars zeros).simplifyData = [] := by
  induction e with
  | var v =>
    have hindex := checkData_var.1 he
    show sc'.checkData (if zeros.contains v then Expr.int 0 else .var v).simplifyData = []
    split
    · rfl
    next hv =>
      have hv : v ∉ zeros := by simpa using hv
      exact checkData_var.2 (h.index v hv hindex)
  | int n | float x => rfl
  | read b idx =>
    rw [Expr.zeroVars_read, Expr.simplifyData, List.map_map]
    exact h.checkAccess he
  | binary op l r ihl ihr =>
    obtain ⟨hop, hl, hr⟩ := checkData_binary.1 he
    exact checkData_binary.2 ⟨hop, ihl hl, ihr hr⟩
  | neg e ih => exact ih he

theorem checkCondition (he : sc.checkCondition e = []) :
    sc'.checkCondition (e.zeroVars zeros).simplifyCondition = [] := by
  induction e with
  | binary op l r ihl ihr =>
    obtain ⟨l', r', heq, hl, hr⟩ | ⟨op', l', r', heq, hop, hl, hr⟩ := of_checkCondition he
    · cases heq
      exact List.append_eq_nil_iff.2 ⟨ihl hl, ihr hr⟩
    · cases heq
      have hboth := List.append_eq_nil_iff.2 ⟨h.checkIndex hl, h.checkIndex hr⟩
      cases op with
      | lt | le | gt | ge | eq => exact hboth
      | _ => cases hop
  | _ => cases he

theorem checkWindow {w : Window} (hw : sc.checkWindow w = []) :
    sc'.checkWindow (w.mapExprs (·.inlined zeros)) = [] := by
  obtain ⟨⟨d, hd, hrank⟩, hexprs⟩ := checkWindow_eq_nil.1 hw
  obtain ⟨d', hd', hrank'⟩ := h.buffer_eq_some hd
  refine checkWindow_eq_nil.2 ⟨⟨d', hd', ?_⟩, fun e he => ?_⟩
  · rw [hrank', hrank]
    exact (List.length_map _).symm
  · rw [Window.exprs_mapExprs] at he
    obtain ⟨e', he', rfl⟩ := List.mem_map.1 he
    exact h.checkIndex (hexprs e' he')

theorem checkCall {templates : Templates} (hcall : sc.checkCall templates t args = []) :
    sc'.checkCall templates t (args.map (·.mapExprs (·.inlined zeros))) = [] := by
  have hnone : sc.checkCall none t args = [] →
      sc'.checkCall none t (args.map (·.mapExprs (·.inlined zeros))) = [] := by
    intro hcall
    rw [Scope.checkCall, List.append_nil, List.flatMap_eq_nil_iff] at hcall ⊢
    exact List.forall_mem_map.2 fun w hw => h.checkWindow (hcall w hw)
  cases templates with
  | none => exact hnone hcall
  | some find =>
    obtain ⟨hwindows, p, hp, htakes⟩ := checkCall_some.1 hcall
    refine checkCall_some.2 ⟨hnone hwindows, p, hp, ?_⟩
    rw [h.kinds_eq]
    refine htakes.map (fun w _ k hk => hk) fun w _ shape hfit => ?_
    rw [Window.intervals_mapExprs]
    exact hfit.map fun i _ n hn => extent?_simplified zeros hn

end Scope.Inlines

/-! ## Allocations that are left out -/

/-- The second scope is the first one without the buffers in `gone`. -/
structure Scope.Lacks (gone : List String) (sc sc' : Scope) : Prop where
  visible : ∀ x, sc'.isVisible x = true → sc.isVisible x = true
  index : ∀ v, sc.isIndex v = true → sc'.isIndex v = true
  buffer : ∀ x ∉ gone, sc'.buffer? x = sc.buffer? x
  gone : ∀ x ∈ gone, sc'.buffer? x = none

theorem Scope.Lacks.refl (sc : Scope) : sc.Lacks [] sc :=
  ⟨fun _ => id, fun _ => id, fun _ _ => rfl, fun _ hx => nomatch hx⟩

namespace Scope.Lacks

variable (h : sc.Lacks gone sc')

include h

theorem not_visible (hx : sc.isVisible x = false) : sc'.isVisible x = false :=
  Bool.eq_false_iff.2 (mt (h.visible x) (Bool.eq_false_iff.1 hx))

theorem addVar (v : String) : (sc.addVar v).Lacks gone (sc'.addVar v) where
  visible x hx := (sc.isVisible_addVar v x).2 (((sc'.isVisible_addVar v x).1 hx).imp_right (h.visible x))
  index x hi := (sc'.isIndex_addVar v x).2 (((sc.isIndex_addVar v x).1 hi).imp_right (h.index x))
  buffer x hx := h.buffer x hx
  gone x hx := h.gone x hx

theorem addBuffer (hd : d.name ∉ gone) : (sc.addBuffer d).Lacks gone (sc'.addBuffer d) where
  visible x hx := by
    rw [isVisible_addBuffer] at hx ⊢
    exact hx.imp_right (h.visible x)
  index x hi := h.index x hi
  buffer x hx := by rw [buffer?_addBuffer, buffer?_addBuffer, h.buffer x hx]
  gone x hx := by
    rw [buffer?_addBuffer, if_neg, h.gone x hx]
    rintro rfl
    exact hd hx

/-- One more buffer is left out. -/
theorem drop (hd : sc.isVisible d.name = false) : (sc.addBuffer d).Lacks (d.name :: gone) sc'  where
  visible x hx := (sc.isVisible_addBuffer d x).2 (.inr (h.visible x hx))
  index x hi := h.index x hi
  buffer x hx := by
    rw [List.mem_cons, not_or] at hx
    rw [buffer?_addBuffer, if_neg (Ne.symm hx.1), h.buffer x hx.2]
  gone x hx := by
    obtain rfl | hx := List.mem_cons.1 hx
    · cases hbuf : sc'.buffer? d.name with
      | none => rfl
      | some d' =>
        rw [h.visible _ (isVisible_of_buffer? hbuf)] at hd
        cases hd
    · exact h.gone x hx

theorem checkIndex (he : sc.checkIndex e = []) : sc'.checkIndex e = [] := by
  refine checkIndex_rebuilt .refl (fun v hv => ?_) he
  obtain ⟨hbuffer, hindex⟩ := checkIndex_var.1 hv
  refine checkIndex_var.2 ⟨?_, h.index v hindex⟩
  by_cases hv : v ∈ gone
  · exact h.gone v hv
  · rw [h.buffer v hv, hbuffer]

theorem checkCall {templates : Templates} (hargs : ∀ w ∈ args, w.buf ∉ gone)
    (hcall : sc.checkCall templates t args = []) : sc'.checkCall templates t args = [] := by
  have hnone : sc.checkCall none t args = [] → sc'.checkCall none t args = [] := by
    intro hcall
    rw [Scope.checkCall, List.append_nil, List.flatMap_eq_nil_iff] at hcall ⊢
    intro w hw
    obtain ⟨hbuf, hexprs⟩ := checkWindow_eq_nil.1 (hcall w hw)
    rw [← h.buffer w.buf (hargs w hw)] at hbuf
    exact checkWindow_eq_nil.2 ⟨hbuf, fun e he => h.checkIndex (hexprs e he)⟩
  cases templates with
  | none => exact hnone hcall
  | some find =>
    obtain ⟨hwindows, p, hp, htakes⟩ := checkCall_some.1 hcall
    refine checkCall_some.2 ⟨hnone hwindows, p, hp, htakes.mono fun w hw k hk => ?_⟩
    rwa [kinds, h.buffer w.buf (hargs w hw)]

end Scope.Lacks

/-- Statements that spare the buffers stay well scoped. -/
theorem Rewording.without_scoped (templates : Scope.Templates) :
    (without gone).Scoped templates (Lacks gone) where
  operands _ _ _ := rfl
  index h := h.checkIndex
  value h hx := Scope.checkData_var.2 (h.index _ (Scope.checkData_var.1 hx))
  access h hb hcheck := by
    obtain ⟨hb, rfl, rfl⟩ := hb
    obtain ⟨hbuf, hidx⟩ := Scope.checkAccess_eq_nil.1 hcheck
    rw [← h.buffer _ hb] at hbuf
    exact Scope.checkAccess_eq_nil.2 ⟨hbuf, fun e he => h.checkIndex (hidx e he)⟩
  call {sc sc' t args args'} h hargs hcheck := by
    have heq : List.Forall₂ Eq args args' := hargs.imp fun _ _ ha => ha.2.symm
    obtain rfl : args = args' := List.forall₂_eq_eq_eq ▸ heq
    refine h.checkCall (fun a ha => ?_) hcheck
    obtain ⟨_, -, hbuf, rfl⟩ := exists_of_forall₂ hargs ha
    exact hbuf
  bind_var h _ hnew := ⟨h.not_visible hnew, h.addVar _⟩
  bind_buffer {sc sc' d} h hx hnew := by
    refine ⟨h.not_visible hnew, ?_⟩
    rw [show d.shape.map (without gone).index = d.shape from List.map_id _]
    exact h.addBuffer hx
  omits h hs := by
    obtain ⟨u, b, idx, rhs, rfl, -⟩ := hs
    exact h

/-! ## Blocks -/

theorem Scope.afterAll_of_declared {b : Block} (h : b.flatMap (·.declared) = []) (sc : Scope) :
    sc.afterAll b = sc := by
  induction b with
  | nil => rfl
  | cons s rest ih =>
    rw [List.flatMap_cons, List.append_eq_nil_iff] at h
    have hs : sc.after s = sc := by
      cases s with
      | alloc d => cases h.1
      | _ => rfl
    show (sc.after s).afterAll rest = sc
    rw [hs, ih h.2]

namespace Stmt.WellScopedAll

variable {templates : Scope.Templates} {b : Block}

/-- By induction on the block, with one name more in `gone` for each allocation that is left out. -/
theorem dropDead (hb : WellScopedAll templates sc b) (h : sc.Lacks gone sc')
    (hspare : b.Spares gone) : WellScopedAll templates sc' (dropDead gone b) := by
  induction b generalizing gone sc sc' with
  | nil => trivial
  | cons s rest ih =>
    obtain ⟨hs, hrest⟩ := hb
    have hkeep : WellScopedAll templates sc'
        (s.flatMap (·.withoutStore gone) ++ LoopNest.dropDead gone rest) := by
      obtain ⟨hs', hlacks⟩ := hspare.head.turns.wellScoped (Rewording.without_scoped _) h ⟨hs, trivial⟩
      rw [flatMapAll, flatMapAll, List.append_nil] at hs' hlacks
      exact wellScopedAll_append.2 ⟨hs', ih hrest hlacks hspare.tail⟩
    cases s with
    | alloc d =>
      rw [LoopNest.dropDead]
      split
      · exact hkeep
      next hdead =>
        have hname := (checkStmt_alloc.1 hs).1
        have hfresh : FreshAll [d.name] rest := hrest.freshAll fun x hx => by
          rw [List.mem_singleton.1 hx]
          exact (sc.isVisible_addBuffer d d.name).2 (.inl rfl)
        exact ih hrest (h.drop hname) (hspare.tail.cons hfresh (by simpa using hdead))
    | _ => exact hkeep

theorem dropDead_nil (hb : WellScopedAll templates sc b) :
    WellScopedAll templates sc (LoopNest.dropDead [] b) := hb.dropDead (.refl sc) (.nil b)

/-- **One round on statements keeps them well formed**, in a scope without the variables of loops
that are inlined. -/
theorem simplifyAll (rs : Ranges) (hb : WellScopedAll templates sc b) (h : sc.Inlines zeros sc') :
    WellScopedAll templates sc' (simplifyAll rs zeros b) := by
  induction b using Block.induction generalizing rs zeros sc sc' with
  | nil => trivial
  | cons s rest ihs ihrest =>
    obtain ⟨hs, hrest⟩ := hb
    rw [Stmt.simplifyAll, wellScopedAll_append]
    have hsimple := simplified_simplify rs zeros s
    generalize s.simplify rs zeros = b' at hsimple
    cases hsimple with
    | never | idle | refuted | vacuous => exact ⟨trivial, ihrest rs hrest h⟩
    | @once hd body _ hdecl =>
      refine ⟨ihs body rfl rs hs.2 (h.inline hd.var), ?_⟩
      rw [afterAll_of_declared ((declared_simplifyAll _ _ _).trans hdecl)]
      exact ihrest rs hrest h
    | @granted e body _ hdecl =>
      refine ⟨ihs body rfl rs hs.2 h, ?_⟩
      rw [afterAll_of_declared ((declared_simplifyAll _ _ _).trans hdecl)]
      exact ihrest rs hrest h
    | @loop hd body body' n _ hbody =>
      obtain ⟨hbound, hvar⟩ := checkStmt_loop.1 hs.1
      refine ⟨⟨⟨checkStmt_loop.2 ⟨h.checkIndex hbound, h.not_visible hvar⟩, ?_⟩, trivial⟩,
        ihrest rs hrest h⟩
      rw [← hbody]
      exact (ihs body rfl _ hs.2 (h.addVar hd.var)).dropDead_nil
    | @guard e body body' hbody =>
      refine ⟨⟨⟨h.checkCondition hs.1, ?_⟩, trivial⟩, ihrest rs hrest h⟩
      rw [← hbody]
      exact (ihs body rfl _ hs.2 h).dropDead_nil
    | store =>
      obtain ⟨haccess, hdata⟩ := List.append_eq_nil_iff.1 hs
      refine ⟨⟨List.append_eq_nil_iff.2 ⟨h.checkAccess haccess, h.checkData hdata⟩, trivial⟩,
        ihrest rs hrest h⟩
    | @alloc d =>
      obtain ⟨hname, hty, hshape⟩ := checkStmt_alloc.1 hs
      refine ⟨⟨checkStmt_alloc.2 ⟨h.not_visible hname, hty, ?_⟩, trivial⟩, ?_⟩
      · exact List.forall_mem_map.2 fun e he => h.checkIndex (hshape e he)
      · refine ihrest rs hrest (h.addBuffer rfl ?_)
        simp [Decl.outline, Decl.rank, Decl.kind]
    | call => exact ⟨⟨h.checkCall hs, trivial⟩, ihrest rs hrest h⟩

end Stmt.WellScopedAll

/-! ## Kernels -/

theorem Scope.Inlines.refl (sc : Scope) : sc.Inlines [] sc :=
  ⟨fun _ => id, fun _ _ => id, fun _ => rfl⟩

theorem Proc.problems_simplifyRounds {templates : Scope.Templates} {p : Proc}
    (hp : p.problems templates = []) (n : Nat) : (p.simplifyRounds n).problems templates = [] := by
  induction n generalizing p with
  | zero => exact hp
  | succ n ih =>
    obtain ⟨hparams, hbody⟩ := Proc.problems_eq_nil.1 hp
    refine ih (Proc.problems_eq_nil.2 ⟨hparams, ?_⟩)
    exact (hbody.simplifyAll ⟨p.sizes, []⟩ (.refl p.scope)).dropDead_nil

/-- **A simplified kernel is well formed if the kernel is.** -/
theorem Proc.problems_simplify {templates : Scope.Templates} {p : Proc}
    (hp : p.problems templates = []) : p.simplify.problems templates = [] :=
  Proc.problems_simplifyRounds hp 32

end LoopNest
