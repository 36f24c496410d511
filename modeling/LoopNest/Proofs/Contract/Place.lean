import LoopNest.Proofs.Contract.Calls
import LoopNest.Step.Target

/-!
# Calls around a change

Most steps change a kernel in one place: from some statement on, a block in it becomes another one.
All other calls stay as they are, in the scope they had. So it is enough to look at the place of the
change, in the scope that is in force there (`Proc.problems_of_place`).
-/

namespace LoopNest

open Stmt Block

variable {find : String → Option Proc}
variable {s : Stmt} {new rest : Block} {x : String}

/-! ## The scope of a place -/

/-- `sc'` is the scope in force where `b` has `t` and `b'` has `t'`, the scope of both blocks being
`sc`. -/
structure Scope.Leads (sc sc' : Scope) (t t' b b' : Block) : Prop where
  visible : ∀ x, sc'.isVisible x = true → sc.isVisible x = true ∨ x ∈ b.binders
  old : ∀ templates, WellScopedAll templates sc b → WellScopedAll templates sc' t
  new : ∀ templates, WellScopedAll templates sc b' → WellScopedAll templates sc' t'
  put : ∀ templates, WellScopedAll templates sc b → WellScopedAll templates sc' t' →
    WellScopedAll templates sc b'
  honours : ∀ find, HonoursAll find sc.kinds b →
    HonoursAll find sc'.kinds t ∧ (HonoursAll find sc'.kinds t' → HonoursAll find sc.kinds b')

namespace Scope.Leads

variable {sc sc' : Scope} {t t' b b' : Block}

/-- From behind a statement. -/
theorem next (h : (sc.after s).Leads sc' t t' b b') : sc.Leads sc' t t' (s :: b) (s :: b')  where
  visible x hx := by
    rw [binders_cons, List.mem_append]
    obtain hx | hx := h.visible x hx
    · cases s with
      | alloc d =>
        refine ((sc.isVisible_addBuffer d x).1 hx).symm.imp_right fun heq => .inl ?_
        simp [Stmt.nested, Stmt.binds?, heq]
      | _ => exact .inl hx
    · exact .inr (.inr hx)
  old ts hb := h.old ts hb.2
  new ts hb := h.new ts hb.2
  put ts hb ht' := ⟨hb.1, h.put ts hb.2 ht'⟩
  honours find hb := by
    obtain ⟨hs, hrest⟩ := hb
    rw [← Scope.kinds_after] at hrest
    refine ⟨(h.honours find hrest).1, fun ht' => ⟨hs, ?_⟩⟩
    rw [← Scope.kinds_after]
    exact (h.honours find hrest).2 ht'

/-- From inside a statement. -/
theorem inside (hbody : s.body? = some b) (h : (sc.inside s).Leads sc' t t' b b') :
    sc.Leads sc' t t' (s :: rest) (s.withBody b' :: rest) := by
  cases s with
  | loop hd body | guard c body =>
    cases hbody
    refine ⟨fun x hx => ?_, fun ts hb => h.old ts hb.1.2, fun ts hb => h.new ts hb.1.2,
      fun ts hb ht' => ⟨⟨hb.1.1, h.put ts hb.1.2 ht'⟩, hb.2⟩,
      fun find hb => ⟨(h.honours find hb.1).1, fun ht' => ⟨(h.honours find hb.1).2 ht', hb.2⟩⟩⟩
    have hvisible := h.visible x hx
    simp only [Scope.inside, isVisible_addVar, binders, Block.nested] at hvisible
    rw [binders_cons, List.mem_append]
    simp only [Stmt.nested, List.filterMap_cons, Stmt.binds?, List.mem_cons]
    tauto
  | _ => cases hbody

end Scope.Leads

theorem Block.Recast.exists_leads {t t' b b' : Block} {path : Path}
    (h : Recast t t' path b b') (sc : Scope) : ∃ sc', sc.Leads sc' t t' b b' := by
  induction h generalizing sc with
  | here =>
    exact ⟨sc, fun x => .inl, fun _ => id, fun _ => id, fun _ _ => id, fun _ hb => ⟨hb, id⟩⟩
  | @next _ _ s _ _ _ ih =>
    obtain ⟨sc', h⟩ := ih (sc.after s)
    exact ⟨sc', h.next⟩
  | @inside _ s _ _ _ hbody _ ih =>
    obtain ⟨sc', h⟩ := ih (sc.inside s)
    exact ⟨sc', h.inside hbody⟩

/-- What is known of a place where the kernel `p`, whose calls honour their templates, gets the block
`t'` for `t`. -/
structure Proc.Place (p : Proc) (find : String → Option Proc) (sc : Scope) (t t' : Block) :
    Prop where
  visible : ∀ x, sc.isVisible x = true → x ∈ p.boundNames
  binders : ∀ x ∈ t.binders, x ∈ p.boundNames
  old : WellScopedAll (some find) sc t
  new : WellScopedAll none sc t'
  linear : t'.Linear

namespace Proc.Place

variable {p : Proc} {sc : Scope} {t t' : Block}

theorem honours (h : p.Place find sc t t') : HonoursAll find sc.kinds t :=
  (wellScopedAll_some.1 h.old).2

/-- A name that is not bound in the kernel stands for no buffer. -/
theorem kinds_eq_none (h : p.Place find sc t t') (hx : x ∉ p.boundNames) : sc.kinds x = none := by
  cases hd : sc.buffer? x with
  | none => rw [Scope.kinds, hd]; rfl
  | some d => exact absurd (h.visible x (Scope.isVisible_of_buffer? hd)) hx

/-- New declarations hide nothing from the calls that follow. -/
theorem honours_append (h : p.Place find sc t (new ++ rest)) (hnew : HonoursAll find sc.kinds new)
    (hrest : HonoursAll find sc.kinds rest) : HonoursAll find sc.kinds (new ++ rest) :=
  hnew.append hrest fun _ hx =>
    h.new.append_left.kinds_eq_none (mem_binders_of_declared hx)

end Proc.Place

/-- **Only the place of a change matters.** -/
theorem Proc.problems_of_place {p : Proc} {t t' b' : Block} {path : Path}
    (hp : p.problems (some find) = []) (h : Recast t t' path p.body b')
    (hout : { p with body := b' }.problems none = []) (hlin : b'.Linear)
    (hplace : ∀ sc, p.Place find sc t t' → HonoursAll find sc.kinds t') :
    { p with body := b' }.problems (some find) = [] := by
  obtain ⟨sc, hleads⟩ := h.exists_leads p.scope
  refine Proc.problems_some.2 ⟨hout, ?_⟩
  have hold : WellScopedAll (some find) p.scope p.body := Proc.wellScoped hp
  have hnew : WellScopedAll none p.scope b' := Proc.wellScoped hout
  refine (hleads.honours find (wellScopedAll_some.1 hold).2).2 (hplace sc ⟨fun x hx => ?_,
    fun x hx => ?_, hleads.old _ hold, hleads.new _ hnew,
    fun s hs => hlin s (h.symm.mem_nested hs)⟩)
  · rw [Proc.boundNames, List.mem_append]
    exact (hleads.visible x hx).imp_left (p.isVisible_scope x).1
  · exact List.mem_append_right _ (h.mem_binders hx)

/-! ## Steps that replace a statement -/

namespace Proc

variable {p q : Proc} {path : Path}

theorem finish_eq_ok : p.finish = .ok q ↔ q = p ∧ p.problems none = [] := by
  unfold finish firstProblem?
  cases hp : p.problems none with
  | nil => simp [eq_comm]
  | cons problem rest => simp

theorem withBody_eq_ok {b : Option Block} :
    p.withBody path b = .ok q ↔ ∃ body, b = some body ∧ q = { p with body } := by
  cases b with
  | none => simp [withBody]
  | some body => simp [withBody, eq_comm]

theorem stmt?_of_pickLoop {loop : String} {h : Header} {body : Block}
    (hpick : p.pickLoop loop = .ok (path, h, body)) : p.stmt? path = some (.loop h body) := by
  simp only [pickLoop, except_bind_eq_ok] at hpick
  obtain ⟨sel, -, path', -, hpick⟩ := hpick
  split at hpick
  next hs =>
    cases hpick
    exact hs
  · cases hpick

theorem stmt?_of_pickAlloc {alloc : String} {d : Decl} (hpick : p.pickAlloc alloc = .ok (path, d)) :
    p.stmt? path = some (.alloc d) := by
  simp only [pickAlloc, except_bind_eq_ok] at hpick
  obtain ⟨sel, -, path', -, hpick⟩ := hpick
  split at hpick
  next hs =>
    cases hpick
    exact hs
  · cases hpick

theorem requireFresh_eq_ok : p.requireFresh x = .ok () ↔ x ∉ p.boundNames := by
  simp [requireFresh]

/-- What a step leaves that puts other statements in the place of one. -/
theorem replaced_of_replaceStmt (hs : p.stmt? path = some s) (hq : p.replaceStmt path new = .ok q) :
    ∃ b, Replaced s new path p.body b ∧ q = { p with body := b } ∧ q.problems none = [] := by
  obtain ⟨b, hreplace, hreplaced⟩ := replaced_of_get? new hs
  rw [replaceStmt, hreplace, except_bind_eq_ok] at hq
  obtain ⟨q', hq', hq⟩ := hq
  cases hq'
  obtain ⟨rfl, hout⟩ := finish_eq_ok.1 hq
  exact ⟨b, hreplaced, rfl, hout⟩

/-- Such a step keeps the calls honest if the new statements do. -/
theorem problems_replaceStmt (hp : p.problems (some find) = [])
    (hs : p.stmt? path = some s) (hq : p.replaceStmt path new = .ok q) (hlin : q.body.Linear)
    (hplace : ∀ sc rest, p.Place find sc (s :: rest) (new ++ rest) →
      HonoursAll find sc.kinds (new ++ rest)) : q.problems (some find) = [] := by
  obtain ⟨b, hreplaced, rfl, hout⟩ := replaced_of_replaceStmt hs hq
  obtain ⟨rest, hrecast⟩ := hreplaced
  exact problems_of_place hp hrecast hout hlin fun sc => hplace sc rest

end Proc

end LoopNest
