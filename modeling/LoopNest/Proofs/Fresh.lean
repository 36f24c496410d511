import LoopNest.Proofs.Scoping

/-!
# Declarations hide nothing

In a well-formed kernel no loop variable and no allocation has a name that is visible where it is
bound. `Stmt.FreshAll` says this of a block, given the names visible outside; it follows from the
absence of problems (`Proc.freshAll`) and is all of well-formedness that the rewrites of kernels
need.
-/

namespace LoopNest

open Block Scope

variable {seen names : List String} {rest : Block}

theorem Stmt.nestedAll_append (b b' : Block) :
    Stmt.nestedAll (b ++ b') = Stmt.nestedAll b ++ Stmt.nestedAll b' := by
  induction b with
  | nil => rfl
  | cons s b ih => rw [List.cons_append, nestedAll, nestedAll, ih, List.append_assoc]

theorem Block.nested_cons (s : Stmt) (rest : Block) :
    Block.nested (s :: rest) = s :: ((s.body?.map Block.nested).getD [] ++ Block.nested rest) := by
  cases s <;> rfl

variable {s : Stmt} {b : Block} {x : String} {templates : Templates} {sc : Scope}

theorem Block.mem_nested_cons {t : Stmt} :
    t ∈ Block.nested (s :: rest) ↔
      t = s ∨ (∃ body, s.body? = some body ∧ t ∈ Block.nested body) ∨ t ∈ Block.nested rest := by
  rw [nested_cons, List.mem_cons, List.mem_append]
  cases s.body? <;> simp

theorem Block.forall_nested_cons {P : Stmt → Prop} :
    (∀ t ∈ Block.nested (s :: rest), P t) ↔ P s ∧
      (∀ body, s.body? = some body → ∀ t ∈ Block.nested body, P t) ∧
      ∀ t ∈ Block.nested rest, P t := by
  simp only [mem_nested_cons]
  constructor
  · intro h
    exact ⟨h s (.inl rfl), fun body hbody t ht => h t (.inr (.inl ⟨body, hbody, ht⟩)),
      fun t ht => h t (.inr (.inr ht))⟩
  · rintro ⟨hs, hbody, hrest⟩ t (rfl | ⟨body, hb, ht⟩ | ht)
    · exact hs
    · exact hbody body hb t ht
    · exact hrest t ht

/-- A block stays if each of its statements does. -/
theorem Stmt.flatMapAll_eq_self {f : Stmt → Block} (h : ∀ s ∈ b.nested, f s = [s]) :
    Stmt.flatMapAll f b = b := by
  induction b using Block.induction with
  | nil => rfl
  | cons s rest ihs ihrest =>
    simp only [Block.nested, nestedAll, List.mem_append] at h
    rw [flatMapAll, ihrest fun t ht => h t (.inr ht)]
    refine congrArg (· ++ rest) (Eq.trans ?_ (h s (.inl (by cases s <;> simp [nested]))))
    cases s with
    | loop hd body | guard e body =>
      rw [flatMap, ihs body rfl fun t ht => h t (.inl (.tail _ ht))]
    | _ => rfl

/-- Changing statements is replacing each one by one other. -/
theorem Stmt.mapAll_eq_flatMapAll (f : Stmt → Stmt) (b : Block) :
    mapAll f b = flatMapAll (fun s => [f s]) b := by
  induction b using Block.induction with
  | nil => rfl
  | cons s rest ihs ihrest =>
    rw [mapAll, flatMapAll, ihrest]
    cases s with
    | loop hd body | guard e body =>
      rw [map, flatMap, ihs body rfl]
      rfl
    | _ => rfl

theorem Stmt.mapAll_eq_self {f : Stmt → Stmt} (h : ∀ s ∈ b.nested, f s = s) :
    Stmt.mapAll f b = b := by
  rw [mapAll_eq_flatMapAll, flatMapAll_eq_self fun s hs => congrArg ([·]) (h s hs)]

theorem mem_insertName {n : String} : x ∈ insertName n names ↔ x = n ∨ x ∈ names := by
  induction names with
  | nil => simp [insertName]
  | cons m rest ih =>
    rw [insertName]
    split
    · simp_all
    · split
      · simp
      · simp only [List.mem_cons, ih]
        exact or_left_comm

theorem mem_sortedNames : x ∈ sortedNames names ↔ x ∈ names := by
  induction names with
  | nil => simp [sortedNames]
  | cons n names ih =>
    rw [List.mem_cons, ← ih]
    exact mem_insertName

/-- The names that statements of the block bind, at any depth. -/
def Block.binders (b : Block) : List String := b.nested.filterMap (·.binds?)

theorem Block.binders_cons (s : Stmt) (rest : Block) :
    binders (s :: rest) = s.nested.filterMap (·.binds?) ++ binders rest := by
  simp [binders, Block.nested, Stmt.nestedAll]

theorem Block.mem_binders_of_allocated (h : x ∈ b.allocated) : x ∈ b.binders := by
  obtain ⟨s, hs, hx⟩ := List.mem_filterMap.1 h
  refine List.mem_filterMap.2 ⟨s, hs, ?_⟩
  cases s <;> simp_all [Stmt.decl?, Stmt.binds?]

namespace Stmt

/-- The names that the statements after this one see because of it. -/
def declared (s : Stmt) : List String := (s.decl?.map (·.name)).toList

mutual

/-- The statement binds no name in `seen`, nor one that is visible where it is bound. -/
def Fresh (seen : List String) : Stmt → Prop
  | .loop h body => h.var ∉ seen ∧ FreshAll (h.var :: seen) body
  | .guard _ body => FreshAll seen body
  | .alloc d => d.name ∉ seen
  | .store .. | .call .. => True

/-- The same for statements in order. -/
def FreshAll (seen : List String) : List Stmt → Prop
  | [] => True
  | s :: rest => s.Fresh seen ∧ FreshAll (s.declared ++ seen) rest

end

theorem FreshAll.mono {b : Block} {seen' : List String} (h : FreshAll seen b)
    (hsub : ∀ x ∈ seen', x ∈ seen) : FreshAll seen' b := by
  induction b using Block.induction generalizing seen seen' with
  | nil => trivial
  | cons s rest ihs ihrest =>
    obtain ⟨hs, hrest⟩ := h
    refine ⟨?_, ihrest hrest fun x hx => ?_⟩
    · cases s with
      | loop hd body =>
        refine ⟨fun hx => hs.1 (hsub _ hx), ihs body rfl hs.2 fun x hx => ?_⟩
        exact List.mem_cons.2 ((List.mem_cons.1 hx).imp_right (hsub x))
      | guard e body => exact ihs body rfl hs hsub
      | alloc d => exact fun hx => hs (hsub _ hx)
      | store u b idx rhs | call t args => trivial
    · exact List.mem_append.2 ((List.mem_append.1 hx).imp_right (hsub x))

theorem FreshAll.append_iff {b b' : Block} :
    FreshAll seen (b ++ b') ↔
      FreshAll seen b ∧ FreshAll ((b.flatMap (·.declared)).reverse ++ seen) b' := by
  induction b generalizing seen with
  | nil => simp [FreshAll]
  | cons s rest ih =>
    have hrev : s.declared.reverse = s.declared := by
      cases s <;> simp [declared, decl?]
    simp only [List.cons_append, FreshAll, ih, List.flatMap_cons, List.reverse_append, hrev,
      List.append_assoc, and_assoc]

/-- What follows statements that declare what another one does. -/
theorem FreshAll.append {b b' : Block} {s : Stmt} (h : FreshAll seen b)
    (hdecl : b.flatMap (·.declared) = s.declared) (h' : FreshAll (s.declared ++ seen) b') :
    FreshAll seen (b ++ b') := by
  refine append_iff.2 ⟨h, h'.mono fun x hx => ?_⟩
  rwa [hdecl, List.mem_append, List.mem_reverse, ← List.mem_append] at hx

/-- **Bound names are new.** -/
theorem FreshAll.not_mem_binders {b : Block} (h : FreshAll seen b) {x : String} (hx : x ∈ seen) :
    x ∉ b.binders := by
  induction b using Block.induction generalizing seen with
  | nil => simp [binders, Block.nested, nestedAll]
  | cons s rest ihs ihrest =>
    obtain ⟨hs, hrest⟩ := h
    rw [binders_cons, List.mem_append, not_or]
    refine ⟨?_, ihrest hrest (List.mem_append_right _ hx)⟩
    cases s with
    | loop hd body =>
      simp only [nested, List.filterMap_cons, binds?, List.mem_cons, not_or]
      exact ⟨fun h => hs.1 (h ▸ hx), ihs body rfl hs.2 (.tail _ hx)⟩
    | guard e body =>
      simp only [nested, List.filterMap_cons, binds?]
      exact ihs body rfl hs hx
    | alloc d =>
      simp only [nested, List.filterMap_cons, binds?, List.filterMap_nil, List.mem_singleton]
      exact fun h => hs (h ▸ hx)
    | store u b idx rhs | call t args => simp [nested, binds?]

end Stmt

/-! ## Well-formed kernels -/

theorem Scope.isVisible_after (sc : Scope) (s : Stmt) (x : String) :
    (sc.after s).isVisible x = true ↔ x ∈ s.declared ∨ sc.isVisible x = true := by
  cases s <;> simp [Scope.after, Stmt.declared, Stmt.decl?, isVisible_addBuffer]

/-- Well-scoped statements bind new names. -/
theorem Stmt.WellScopedAll.freshAll (hseen : ∀ x ∈ seen, sc.isVisible x = true)
    (h : Stmt.WellScopedAll templates sc b) : Stmt.FreshAll seen b := by
  induction b using Block.induction generalizing sc seen with
  | nil => trivial
  | cons s rest ihs ihrest =>
    obtain ⟨hs, hrest⟩ := h
    refine ⟨?_, ihrest (fun x hx => ?_) hrest⟩
    · cases s with
      | loop hd body =>
        refine ⟨fun hx => ?_, ihs body rfl (fun x hx => ?_) hs.2⟩
        · have hcheck := hs.1
          simp [checkStmt, hseen _ hx] at hcheck
        · rw [isVisible_addVar]
          exact (List.mem_cons.1 hx).imp_right (hseen x)
      | guard e body => exact ihs body rfl hseen hs.2
      | alloc d =>
        intro hx
        have hcheck := hs.check
        simp [checkStmt, hseen _ hx] at hcheck
      | store u b idx rhs | call t args => trivial
    · rw [isVisible_after]
      exact (List.mem_append.1 hx).imp_right (hseen x)

/-- The body of a statement sees what the statement sees and what it binds. -/
theorem Stmt.WellScoped.body {body : Block} (h : s.WellScoped templates sc)
    (hbody : s.body? = some body) : Stmt.WellScopedAll templates (sc.inside s) body := by
  cases s with
  | loop hd body' | guard c body' =>
    cases hbody
    exact h.2
  | _ => cases hbody

/-- Well-scoped statements bind no name that is visible. -/
theorem Stmt.WellScopedAll.isVisible_eq_false (h : Stmt.WellScopedAll templates sc b)
    (hx : x ∈ b.binders) : sc.isVisible x = false := by
  by_contra hvisible
  have hfresh : Stmt.FreshAll [x] b :=
    h.freshAll fun y hy => List.mem_singleton.1 hy ▸ Bool.not_eq_false _ ▸ hvisible
  exact hfresh.not_mem_binders (List.mem_singleton_self x) hx

theorem Proc.isVisible_scope (p : Proc) (x : String) :
    p.scope.isVisible x = true ↔ x ∈ p.params.map (·.name) := by
  rw [scope]
  induction p.params using List.reverseRecOn with
  | nil => simp [isVisible, isIndex]
  | append_singleton params q ih =>
    rw [List.foldl_concat, isVisible_addParam, ih]
    simp [or_comm]

/-- **A kernel without problems hides nothing.** -/
theorem Proc.freshAll {p : Proc} (h : p.problems templates = []) :
    Stmt.FreshAll (p.params.map (·.name)) p.body :=
  (Proc.wellScoped h).freshAll fun x hx => (p.isVisible_scope x).2 hx

theorem Scope.nodup_of_checkParams {isTemplate : Bool} {params : List Param}
    (h : checkParams isTemplate sc params = []) :
    (params.map (·.name)).Nodup ∧ ∀ q ∈ params, sc.isVisible q.name = false := by
  induction params generalizing sc with
  | nil => simp
  | cons q params ih =>
    obtain ⟨hq, -, hrest⟩ := of_checkParams h
    obtain ⟨hnodup, hnew⟩ := ih hrest
    simp only [← Bool.not_eq_true, isVisible_addParam, not_or] at hnew hq ⊢
    refine ⟨List.nodup_cons.2 ⟨fun hmem => ?_, hnodup⟩,
      List.forall_mem_cons.2 ⟨hq, fun r hr => (hnew r hr).2⟩⟩
    obtain ⟨r, hr, heq⟩ := List.mem_map.1 hmem
    exact (hnew r hr).1 heq

/-- The parameters of a valid kernel have different names. -/
theorem Proc.nodup_params {p : Proc} (h : p.problems templates = []) :
    (p.params.map (·.name)).Nodup :=
  (nodup_of_checkParams (List.map_eq_nil_iff.1 (List.append_eq_nil_iff.1 h).1)).1

end LoopNest
