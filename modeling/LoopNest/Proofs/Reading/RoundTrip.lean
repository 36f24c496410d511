import LoopNest.Proofs.Reading.Faithful

/-!
# Kernels that survive their text

A valid kernel uses only names that are in scope, so the names it binds and the templates it calls
decide whether it can be spelled (`Proc.spelled_of_valid`). Bare names are resolved in the reading by
a list that grows along the text; on a valid kernel it holds the buffers in scope (`Scope.Holds`), so
every scalar read is found again and no index is taken for one. `Proc.parse_text_iff` puts this
together with what becomes of literals: exactly the kernels with faithful expressions survive.
-/

namespace LoopNest

open Text Stmt Block

variable {s : Stmt} {b : Block} {templates : Templates} {isTemplate : Bool} {params : List Param}

/-! ## What validity says about names -/

namespace Scope

variable {sc : Scope} {e : Expr}

/-- What a statement that passes its check names is visible, bound by it, or its template. -/
theorem ownNames_of_checkStmt (h : sc.checkStmt none s = []) {n : String} (hn : n ∈ s.ownNames) :
    sc.isVisible n = true ∨ s.binds? = some n ∨ ∃ args, s = .call n args := by
  cases s with
  | loop hd body | alloc d => exact .inr (.inl (congrArg some (List.mem_singleton.1 hn).symm))
  | guard c body => cases hn
  | store u b idx rhs =>
    obtain rfl := List.mem_singleton.1 hn
    obtain ⟨⟨d, hd, -⟩, -⟩ := checkAccess_eq_nil.1 (List.append_eq_nil_iff.1 h).1
    exact .inl (isVisible_of_buffer? hd)
  | call t args =>
    obtain rfl | hn := List.mem_cons.1 hn
    · exact .inr (.inr ⟨args, rfl⟩)
    · obtain ⟨w, hw, rfl⟩ := List.mem_map.1 hn
      have hwindow := List.flatMap_eq_nil_iff.1 (List.append_eq_nil_iff.1 h).1 w hw
      obtain ⟨⟨d, hd, -⟩, -⟩ := checkWindow_eq_nil.1 hwindow
      exact .inl (isVisible_of_buffer? hd)

theorem Knows.spelled (h : sc.Knows e) (hnames : ∀ x, sc.isVisible x = true → isIdent x = true)
    (hleast : .int Int64.minValue ∉ e.parts) : e.Spelled := by
  refine Expr.spelled_iff.2 ⟨fun v hv => hnames v ?_, fun b hb => hnames b ?_, hleast⟩
  · exact isVisible_of_isIndex (h.vars v hv)
  · obtain ⟨d, hd⟩ := Option.isSome_iff_exists.1 (h.buffers b hb)
    exact isVisible_of_buffer? hd

end Scope

variable {sc : Scope} {names : List String} {e : Expr}

/-- **A well-scoped block whose binders and templates are identifiers can be spelled**, but for the
least word. -/
theorem Block.spelled_of_wellScoped (h : WellScopedAll none sc b)
    (hsc : ∀ x, sc.isVisible x = true → isIdent x = true)
    (hbound : ∀ s ∈ b.nested, ∀ n ∈ s.binds?, isIdent n = true)
    (hcalls : ∀ s ∈ b.nested, ∀ t args, s = .call t args → isIdent t = true)
    (hleast : ∀ e ∈ b.exprs, .int Int64.minValue ∉ e.parts) : b.Spelled := by
  induction b using Block.induction generalizing sc with
  | nil => exact nofun
  | cons s rest ihBody ih =>
    obtain ⟨hs, hrest⟩ := h
    obtain ⟨hbs, hbbody, hbrest⟩ := forall_nested_cons.1 hbound
    obtain ⟨hcs, hcbody, hcrest⟩ := forall_nested_cons.1 hcalls
    rw [exprs_cons, List.forall_mem_append, List.forall_mem_append] at hleast
    obtain ⟨hls, hlbody, hlrest⟩ := hleast
    refine forall_nested_cons.2 ⟨⟨fun n hn => ?_, fun e he => ?_⟩, fun body hbody => ?_, ?_⟩
    · obtain hvisible | hbinds | ⟨args, hcall⟩ := Scope.ownNames_of_checkStmt hs.check hn
      · exact hsc n hvisible
      · exact hbs n hbinds
      · exact hcs n args hcall
    · exact (Scope.knows_of_checkStmt hs.check e he).spelled hsc (hls e he)
    · rw [hbody] at hlbody
      refine ihBody body hbody (hs.body hbody) (fun x hx => ?_) (hbbody body hbody)
        (hcbody body hbody) hlbody
      cases s with
      | loop hd body' =>
        obtain rfl | hx := (sc.isVisible_addVar hd.var x).1 hx
        · exact hbs _ rfl
        · exact hsc x hx
      | guard c body' => exact hsc x hx
      | _ => cases hbody
    · refine ih hrest (fun x hx => ?_) hbrest hcrest hlrest
      obtain hx | hx := (sc.isVisible_after s x).1 hx
      · cases s with
        | alloc d =>
          obtain rfl : x = d.name := by simpa [declared, decl?] using hx
          exact hbs _ rfl
        | _ => exact absurd hx (by simp [declared, decl?])
      · exact hsc x hx

/-! ## Resolving bare names -/

/-- The names are the buffers of the scope, and no index is one of them. -/
structure Scope.Holds (sc : Scope) (names : List String) : Prop where
  buffer : ∀ x, x ∈ names ↔ (sc.buffer? x).isSome
  apart : ∀ v, sc.isIndex v = true → v ∉ names

namespace Scope.Holds

variable {sc : Scope} {names : List String} (h : sc.Holds names)
include h

theorem isVisible {x : String} (hx : x ∈ names) : sc.isVisible x = true := by
  obtain ⟨d, hd⟩ := Option.isSome_iff_exists.1 ((h.buffer x).1 hx)
  exact isVisible_of_buffer? hd

theorem addVar {v : String} (hv : sc.isVisible v = false) : (sc.addVar v).Holds names where
  buffer := h.buffer
  apart w hw hmem := by
    obtain rfl | hw := (sc.isIndex_addVar v w).1 hw
    · rw [h.isVisible hmem] at hv
      cases hv
    · exact h.apart w hw hmem

theorem addBuffer {d : Decl} (hd : sc.isVisible d.name = false) :
    (sc.addBuffer d).Holds (d.name :: names) where
  buffer x := by
    rw [sc.buffer?_addBuffer, List.mem_cons, h.buffer]
    by_cases hx : d.name = x
    · simp [hx]
    · simp [hx, Ne.symm hx]
  apart w hw hmem := by
    have hindex : sc.isIndex w = true := hw
    obtain rfl | hmem := List.mem_cons.1 hmem
    · rw [isVisible_of_isIndex hindex] at hd
      cases hd
    · exact h.apart w hindex hmem

theorem after (hs : sc.checkStmt templates s = []) : (sc.after s).Holds (s.declared ++ names) := by
  cases s with
  | alloc d => exact h.addBuffer (checkStmt_alloc.1 hs).1
  | _ => exact h

theorem inside (hs : sc.checkStmt templates s = []) : (sc.inside s).Holds names := by
  cases s with
  | loop hd body => exact h.addVar (checkStmt_loop.1 hs).2
  | _ => exact h

end Scope.Holds

theorem Proc.holds_scope {p : Proc} (h : p.problems none = []) :
    p.scope.Holds (p.bufferParams.map (·.name)) := by
  rw [scope_eq]
  refine ⟨fun x => by simp [Scope.buffer?], fun v hv hmem => ?_⟩
  have hsize : v ∈ p.sizes := by simpa [Scope.isIndex] using hv
  obtain ⟨_ | _, hq, ⟨⟩⟩ := List.mem_filterMap.1 hsize
  obtain ⟨d, hd, rfl⟩ := List.mem_map.1 hmem
  obtain ⟨_ | _, hr, ⟨⟩⟩ := List.mem_filterMap.1 hd
  cases List.inj_on_of_nodup_map (nodup_params h) hq hr rfl

/-! ### Blocks -/

namespace Stmt

theorem exprs_asRead (s : Stmt) : s.asRead.exprs = s.exprs.map (·.asRead) := by
  cases s with
  | call t args =>
    simp [asRead, map, mapExprs, exprs, List.flatMap_map, List.map_flatMap, Window.exprs_mapExprs]
  | _ => simp [asRead, map, mapExprs, exprs]

theorem body?_asRead (s : Stmt) : s.asRead.body? = s.body?.map (List.map (·.asRead)) := by
  cases s with
  | loop h body | guard c body => exact congrArg some (mapAll_eq_map _ body)
  | _ => rfl

theorem declared_asRead (s : Stmt) : s.asRead.declared = s.declared := by
  cases s <;> rfl

/-- A statement that keeps its expressions and its body is resolved to itself. -/
theorem resolve_asRead {names : List String} (hexprs : ∀ e ∈ s.exprs, e.asRead.resolve names = e)
    (hbody : ∀ body, s.body? = some body → resolveAll names (body.map (·.asRead)) = body) :
    s.asRead.resolve names = s := by
  have hmap : ∀ es : List Expr, (∀ e ∈ es, e.asRead.resolve names = e) →
      (es.map (·.asRead)).map (·.resolve names) = es := by
    intro es hes
    rw [List.map_map]
    exact (List.map_congr_left hes).trans (List.map_id' es)
  cases s with
  | loop h body =>
    have hbound := hexprs h.bound (.head _)
    show Stmt.loop { h with bound := h.bound.asRead.resolve names } (resolveAll names _) = _
    rw [hbound, mapAll_eq_map]
    exact congrArg _ (hbody body rfl)
  | guard c body =>
    show Stmt.guard (c.asRead.resolve names) (resolveAll names _) = _
    rw [hexprs c (.head _), mapAll_eq_map]
    exact congrArg _ (hbody body rfl)
  | store u b idx rhs =>
    obtain ⟨hidx, hrhs⟩ := List.forall_mem_append.1 hexprs
    show Stmt.store u b ((idx.map (·.asRead)).map (·.resolve names)) (rhs.asRead.resolve names) = _
    rw [hmap idx hidx, hrhs rhs (.head _)]
  | alloc d =>
    show Stmt.alloc { d with shape := (d.shape.map (·.asRead)).map (·.resolve names) } = _
    rw [hmap d.shape hexprs]
  | call t args =>
    show Stmt.call t ((args.map (·.mapExprs (·.asRead))).map (·.mapExprs (·.resolve names))) = _
    rw [List.map_map]
    refine congrArg _ ((List.map_congr_left fun w hw => ?_).trans (List.map_id' args))
    show ({ w with dims := (w.dims.map _).map _ } : Window) = w
    rw [List.map_map]
    refine congrArg (Window.mk w.buf)
      ((List.map_congr_left fun d hd => ?_).trans (List.map_id' w.dims))
    have hdim : ∀ e ∈ d.exprs, e.asRead.resolve names = e := fun e he =>
      hexprs e (List.mem_flatMap.2 ⟨w, hw, List.mem_flatMap.2 ⟨d, hd, he⟩⟩)
    cases d with
    | point e => exact congrArg _ (hdim e (.head _))
    | interval lo hi =>
      exact congrArg₂ _ (hdim lo (.head _)) (hdim hi (by simp [WindowDim.exprs]))

end Stmt

/-- The scope after a statement knows what the scope before it knows. -/
theorem Scope.Knows.after (h : sc.Knows e) (s : Stmt) : (sc.after s).Knows e := by
  cases s with
  | alloc d =>
    refine ⟨h.vars, fun b hb => ?_⟩
    show ((sc.addBuffer d).buffer? b).isSome = true
    rw [sc.buffer?_addBuffer]
    split
    · rfl
    · exact h.buffers b hb
  | _ => exact h

theorem Scope.Knows.resolve_asRead (h : sc.Knows e) (hnames : sc.Holds names)
    (hfaithful : ∀ a ∈ e.parts, a.isFaithful = true)
    (hcodec : ∀ x, .float x ∈ e.parts → Decimal.reread x = x) : e.asRead.resolve names = e :=
  Expr.resolve_asRead (fun v hv => hnames.apart v (h.vars v hv))
    (fun b hb => (hnames.buffer b).2 (h.buffers b hb)) hfaithful hcodec

/-- **A well-scoped block with faithful expressions is read as itself.** The names that the resolver
gathers on its way are the buffers in scope. -/
theorem Block.resolve_asRead (h : WellScopedAll none sc b) (hnames : sc.Holds names)
    (hfaithful : ∀ e ∈ b.exprs, ∀ a ∈ e.parts, a.isFaithful = true)
    (hcodec : ∀ e ∈ b.exprs, ∀ x, .float x ∈ e.parts → Decimal.reread x = x) :
    Stmt.resolveAll names (b.map (·.asRead)) = b := by
  induction b using Block.induction generalizing sc names with
  | nil => rfl
  | cons s rest ihBody ih =>
    obtain ⟨hs, hrest⟩ := h
    rw [exprs_cons, List.forall_mem_append, List.forall_mem_append] at hfaithful hcodec
    have hnames' := hnames.after hs.check
    have hstmt : s.asRead.resolve (s.declared ++ names) = s := by
      refine Stmt.resolve_asRead (fun e he => ?_) fun body hbody => ?_
      · exact ((Scope.knows_of_checkStmt hs.check e he).after s).resolve_asRead hnames'
          (hfaithful.1 e he) (hcodec.1 e he)
      · have hdeclared : s.declared = [] := by
          cases s with
          | alloc d => cases hbody
          | _ => rfl
        rw [hbody] at hfaithful hcodec
        rw [hdeclared]
        exact ihBody body hbody (hs.body hbody) (hnames.inside hs.check) hfaithful.2.1 hcodec.2.1
    rw [List.map_cons, Stmt.resolveAll]
    show s.asRead.resolve (s.asRead.declared ++ names) ::
      Stmt.resolveAll (s.asRead.declared ++ names) _ = _
    rw [s.declared_asRead, hstmt, ih hrest hnames' hfaithful.2.2 hcodec.2.2]

/-- Each expression that is read is one of the block, as read and with some names resolved. -/
theorem Block.exprs_resolveAll (b : Block) (names : List String) :
    List.Forall₂ (fun e' e => ∃ names, e' = e.asRead.resolve names)
      (Block.exprs (Stmt.resolveAll names (b.map (·.asRead)))) b.exprs := by
  induction b using Block.induction generalizing names with
  | nil => exact .nil
  | cons s rest ihBody ih =>
    rw [List.map_cons, Stmt.resolveAll, exprs_cons, exprs_cons]
    refine List.rel_append ?_ (List.rel_append ?_ (ih _))
    · rw [exprs_resolve, Stmt.exprs_asRead, List.map_map, List.forall₂_map_left_iff,
        List.forall₂_same]
      exact fun e _ => ⟨_, rfl⟩
    · rw [body?_resolve, Stmt.body?_asRead]
      cases hs : s.body? with
      | none => exact .nil
      | some body => exact ihBody body hs _

/-! ## Kernels -/

/-- The shape of a parameter names parameters before it. -/
theorem Scope.shape_of_checkParams (h : checkParams isTemplate sc params = []) {d : Decl}
    (hd : d ∈ params.filterMap (·.decl?)) (he : e ∈ d.shape) :
    e.buffers = [] ∧ ∀ v ∈ e.vars, v ∈ params.map (·.name) ∨ sc.isVisible v = true := by
  induction params generalizing sc with
  | nil => cases hd
  | cons q params ih =>
    obtain ⟨-, hdecl, hrest⟩ := of_checkParams h
    obtain ⟨a, ha, had⟩ := List.mem_filterMap.1 hd
    obtain rfl | ha := List.mem_cons.1 ha
    · cases a with
      | size n => cases had
      | buffer d' =>
        cases had
        have hindex := List.flatMap_eq_nil_iff.1 (List.append_eq_nil_iff.1 (hdecl _ rfl)).2 e he
        exact ⟨buffers_of_checkIndex hindex, fun v hv =>
          .inr (isVisible_of_isIndex (isIndex_of_checkIndex hindex v hv))⟩
    · obtain ⟨hbuffers, hvars⟩ := ih hrest (List.mem_filterMap.2 ⟨a, ha, had⟩)
      refine ⟨hbuffers, fun v hv => ?_⟩
      rw [List.map_cons, List.mem_cons]
      obtain hv | hv := hvars v hv
      · exact .inl (.inr hv)
      · exact ((sc.isVisible_addParam q v).1 hv).imp .inl id

namespace Proc

variable {p : Proc}

theorem mem_parts {a : Expr} : a ∈ p.parts ↔ ∃ e ∈ p.exprs, a ∈ e.parts := List.mem_flatMap

/-- **A valid kernel whose binders and templates are identifiers can be spelled**, but for the least
word. -/
theorem spelled_of_valid (hvalid : p.problems none = []) (hname : isIdent p.name = true)
    (hbound : ∀ n ∈ p.boundNames, isIdent n = true)
    (hcalls : ∀ t args, .call t args ∈ p.body.nested → isIdent t = true)
    (hleast : ∀ e ∈ p.exprs, .int Int64.minValue ∉ e.parts) : p.Spelled := by
  obtain ⟨hparams, hbody⟩ := Proc.problems_eq_nil.1 hvalid
  obtain ⟨hboundParams, hboundBody⟩ := List.forall_mem_append.1 hbound
  obtain ⟨hleastParams, hleastBody⟩ := List.forall_mem_append.1 hleast
  refine ⟨hname, fun a ha => ⟨?_, fun d hd e he => ?_⟩, ?_⟩
  · exact hboundParams _ (List.mem_map_of_mem ha)
  · have hmem : d ∈ p.bufferParams := List.mem_filterMap.2 ⟨a, ha, hd⟩
    obtain ⟨hbuffers, hvars⟩ := Scope.shape_of_checkParams hparams hmem he
    refine Expr.spelled_iff.2 ⟨fun v hv => ?_, by simp [hbuffers], ?_⟩
    · obtain hv | hv := hvars v hv
      · exact hboundParams v hv
      · simp [Scope.isVisible, Scope.isIndex] at hv
    · exact hleastParams e (List.mem_flatMap.2 ⟨d, hmem, he⟩)
  · refine spelled_of_wellScoped hbody (fun x hx => ?_) (fun s hs n hn => ?_)
      (fun s hs t args hst => hcalls t args (hst ▸ hs)) hleastBody
    · exact hboundParams x ((p.isVisible_scope x).1 hx)
    · exact hboundBody n (List.mem_filterMap.2 ⟨s, hs, hn⟩)

theorem Spelled.exprs (h : p.Spelled) : ∀ e ∈ p.exprs, e.Spelled := by
  refine List.forall_mem_append.2 ⟨fun e he => ?_, fun e he => ?_⟩
  · obtain ⟨d, hd, he⟩ := List.mem_flatMap.1 he
    obtain ⟨a, ha, had⟩ := List.mem_filterMap.1 hd
    exact (h.params a ha).shape d had e he
  · obtain ⟨s, hs, he⟩ := List.mem_flatMap.1 he
    exact (h.body s hs).exprs e he

/-- **A valid kernel with faithful expressions is read as itself.** -/
theorem resolve_asRead (hvalid : p.problems none = [])
    (hfaithful : ∀ e ∈ p.exprs, ∀ a ∈ e.parts, a.isFaithful = true)
    (hcodec : ∀ e ∈ p.exprs, ∀ x, .float x ∈ e.parts → Decimal.reread x = x) :
    p.asRead.resolve = p := by
  obtain ⟨hparams, hbody⟩ := Proc.problems_eq_nil.1 hvalid
  obtain ⟨hfaithfulParams, hfaithfulBody⟩ := List.forall_mem_append.1 hfaithful
  obtain ⟨hcodecParams, hcodecBody⟩ := List.forall_mem_append.1 hcodec
  have hshape : ∀ d ∈ p.bufferParams, ∀ e ∈ d.shape, e.asRead = e := by
    intro d hd e he
    have hmem : e ∈ p.bufferParams.flatMap (·.shape) := List.mem_flatMap.2 ⟨d, hd, he⟩
    have hbuffers := (Scope.shape_of_checkParams hparams hd he).1
    have hread : e.asRead.resolve [] = e := Expr.resolve_asRead (by simp) (by simp [hbuffers])
      (hfaithfulParams e hmem) (hcodecParams e hmem)
    rwa [Expr.resolve_nil] at hread
  have hparamsRead : p.params.map (·.asRead) = p.params := by
    refine (List.map_congr_left fun a ha => ?_).trans (List.map_id' p.params)
    cases a with
    | size n => rfl
    | buffer d =>
      have hd := hshape d (List.mem_filterMap.2 ⟨_, ha, rfl⟩)
      have hmap : d.shape.map (·.asRead) = d.shape :=
        (List.map_congr_left hd).trans (List.map_id' _)
      show Param.buffer { d with shape := d.shape.map (·.asRead) } = _
      rw [hmap]
  have hbodyRead := Block.resolve_asRead hbody (holds_scope hvalid) hfaithfulBody hcodecBody
  have hbuffers : p.asRead.bufferParams = p.bufferParams :=
    congrArg (List.filterMap Param.decl?) hparamsRead
  rw [Proc.resolve, hbuffers]
  show (⟨p.name, p.params.map (·.asRead), Stmt.resolveAll _ (p.body.map (·.asRead)), p.instr⟩ :
    Proc) = p
  rw [hparamsRead, hbodyRead]

theorem exprs_asRead_resolve (p : Proc) :
    List.Forall₂ (fun e' e => ∃ names, e' = e.asRead.resolve names)
      p.asRead.resolve.exprs p.exprs := by
  refine List.rel_append ?_ (exprs_resolveAll p.body _)
  have hdecls : p.asRead.bufferParams = p.bufferParams.map (·.asRead) := by
    rw [bufferParams, bufferParams, asRead, List.filterMap_map, List.map_filterMap]
    refine List.filterMap_congr fun a _ => ?_
    cases a <;> rfl
  show List.Forall₂ _ (p.asRead.bufferParams.flatMap _) _
  rw [hdecls, List.flatMap_map]
  refine List.rel_flatMap (R := Eq) (List.forall₂_same.2 fun _ _ => rfl) ?_
  rintro d _ rfl
  show List.Forall₂ _ (d.shape.map (·.asRead)) d.shape
  rw [List.forall₂_map_left_iff, List.forall₂_same]
  exact fun e _ => ⟨[], e.asRead.resolve_nil.symm⟩

/-- **Exactly the kernels with faithful expressions survive their text.** A kernel with identifiers
for names is read back, as itself, if none of its expressions holds the least word, a number that is
not finite, or a sign before an unsigned literal; otherwise nothing that is the same is read. -/
theorem parse_text_iff (hvalid : p.problems none = []) (hname : isIdent p.name = true)
    (hbound : ∀ n ∈ p.boundNames, isIdent n = true)
    (hcalls : ∀ t args, .call t args ∈ p.body.nested → isIdent t = true)
    (hcodec : ∀ x, .float x ∈ p.parts → x.isFinite = true →
      Decimal.double? (Decimal.literal x).toList = some x) :
    ((∃ q, Proc.parse p.text = .ok q ∧ q.same p = true) ↔ ∀ a ∈ p.parts, a.isFaithful = true) ∧
      ((∀ a ∈ p.parts, a.isFaithful = true) → Proc.parse p.text = .ok p) := by
  have hforward : (∀ a ∈ p.parts, a.isFaithful = true) → Proc.parse p.text = .ok p := by
    intro h
    have hparts : ∀ e ∈ p.exprs, ∀ a ∈ e.parts, a.isFaithful = true := fun e he a ha =>
      h a (mem_parts.2 ⟨e, he, ha⟩)
    have hspelled : p.Spelled := by
      refine spelled_of_valid hvalid hname hbound hcalls fun e he hmem => ?_
      exact absurd (hparts e he _ hmem) (by decide)
    rw [parse_text_eq_asRead hspelled, resolve_asRead hvalid hparts fun e he x hx => ?_]
    rw [Decimal.reread, hcodec x (mem_parts.2 ⟨e, he, hx⟩) (hparts e he _ hx)]
    rfl
  refine ⟨⟨?_, fun h => ⟨p, hforward h, ?_⟩⟩, hforward⟩
  · rintro ⟨q, hq, hsame⟩ a ha
    obtain ⟨e, he, ha⟩ := mem_parts.1 ha
    have hrel := exprs_of_same hsame
    -- the least word is never read, so the kernel has none of it
    have hleast : ∀ e ∈ p.exprs, .int Int64.minValue ∉ e.parts := by
      intro e he hmem
      obtain ⟨e', he', hsame⟩ := exists_of_forall₂ hrel he
      have hspelled := (spelled_of_parse hq).exprs e' he'
      exact (Expr.spelled_iff.1 hspelled).2.2 (Expr.int_mem_parts_of_same hsame hmem)
    have hspelled := spelled_of_valid hvalid hname hbound hcalls hleast
    rw [parse_text_eq_asRead hspelled] at hq
    cases hq
    -- so what is read is the kernel as read, place by place
    have hboth : List.Forall₂ (fun e' e => ∃ names, (e.asRead.resolve names).same e = true)
        p.asRead.resolve.exprs p.exprs := by
      refine List.Forall₂.mp (fun e' e hread hsame => ?_) p.exprs_asRead_resolve hrel
      obtain ⟨names, rfl⟩ := hread
      exact ⟨names, hsame⟩
    obtain ⟨-, -, names, hfaithful⟩ := exists_of_forall₂ hboth he
    exact Expr.isFaithful_of_same (hleast e he) hfaithful a ha
  · exact same_self fun e he => Expr.same_self fun a ha => h a (mem_parts.2 ⟨e, he, ha⟩)

/-- Words of the grammar as names, signs of all kinds, a scalar and a quoted text. -/
def wordy : Proc where
  name := "proc"
  params := [.size "size", .buffer ⟨"for", .f32, [.var "size", .int 4], .dram⟩,
    .buffer ⟨"and", .f32, [], .dram⟩]
  body := [
    .loop ⟨"in", .var "size", .seq⟩ [
      .guard (.binary .and (.binary .lt (.sub (.var "in") (.sub (.int 1) (.var "size"))) (.int (-1)))
        (.binary .ge (.neg (.int (-2))) (.neg (.neg (.var "in"))))) [
        .store .add "for" [.var "in", .int 0]
          (.mul (.neg (.float (-1.5))) (.add (.read "and" []) (.float 0.1)))]],
    .call "if" [⟨"for", [.point (.int 0), .interval (.int 0) (.int 4)]⟩]]
  instr := some "say \"\\\n\""

theorem wordy_leaves : wordy.body.nested.all (fun | .call t _ => isIdent t | _ => true) = true ∧
    wordy.parts.all (fun
      | .float x => Decimal.double? (Decimal.literal x).toList = some x
      | _ => true) = true := by
  decide +kernel

/-- A kernel that is named after the words of its own grammar is read back as itself. -/
theorem parse_text_wordy : wordy.problems none = [] ∧ isIdent wordy.name = true ∧
    (∀ n ∈ wordy.boundNames, isIdent n = true) ∧ (∀ a ∈ wordy.parts, a.isFaithful = true) ∧
    Proc.parse wordy.text = .ok wordy := by
  have hvalid : wordy.problems none = [] := rfl
  have hbound : ∀ n ∈ wordy.boundNames, isIdent n = true := by decide
  have hfaithful : ∀ a ∈ wordy.parts, a.isFaithful = true := by decide +kernel
  have hcalls : ∀ t args, .call t args ∈ wordy.body.nested → isIdent t = true :=
    fun t args => List.all_eq_true.1 wordy_leaves.1 _
  have hcodec : ∀ x, .float x ∈ wordy.parts → x.isFinite = true →
      Decimal.double? (Decimal.literal x).toList = some x :=
    fun x hx _ => of_decide_eq_true (List.all_eq_true.1 wordy_leaves.2 _ hx)
  exact ⟨hvalid, by decide, hbound, hfaithful,
    (parse_text_iff hvalid (by decide) hbound hcalls hcodec).2 hfaithful⟩

end Proc

end LoopNest
