import LoopNest.Proofs.Reading.Names
import LoopNest.Proofs.Reading.RoundTrip

/-!
# Kernels along a schedule are read back

Every step builds a valid kernel whose names are identifiers, from one that is such a kernel and new
names that are identifiers (`Step.printable_apply`). So the text of every kernel along a schedule is
accepted (`Schedule.replay_parse_text`), unless the kernel holds the least word. Folding can make a
literal of it, and that literal has no text that is read (`Schedule.folded_least_word_not_read`).
-/

namespace LoopNest

open Text Text.Parser

/-! ## Kernels that can be printed -/

/-- A valid kernel whose names are identifiers. Its text is read back unless it holds the least
word. -/
structure Proc.Printable (p : Proc) : Prop where
  valid : p.problems none = []
  name : isIdent p.name = true
  params : ∀ a ∈ p.params, isIdent a.name = true
  body : p.body.Named

namespace Proc

variable {p q : Proc} {c : Catalog}

theorem Remade.printable (h : p.Remade q) (hp : p.Printable) : q.Printable := by
  obtain ⟨hvalid, b, hb, rfl⟩ := h
  exact ⟨hvalid, hp.name, hp.params, hb⟩

/-- What is read has identifiers for names. -/
theorem printable_of_parse {s : String} (h : Proc.parse s = .ok p) (hvalid : p.problems none = []) :
    p.Printable := by
  have hspelled := spelled_of_parse h
  refine ⟨hvalid, hspelled.name, fun a ha => (hspelled.params a ha).name, ?_⟩
  refine Block.forall_nested.1 fun s hs n hn => (hspelled.body s hs).names n ?_
  cases s with
  | call t args => exact List.mem_cons.2 (.inl (List.mem_singleton.1 hn))
  | store u b idx rhs => cases hn
  | _ => exact hn

theorem Printable.spelled (h : p.Printable) (hleast : .int Int64.minValue ∉ p.parts) :
    p.Spelled := by
  have hgiven := Block.forall_nested.2 h.body
  refine spelled_of_valid h.valid h.name (List.forall_mem_append.2 ⟨?_, fun n hn => ?_⟩)
    (fun t args ht => hgiven _ ht t (.head _)) fun e he hmem => hleast ?_
  · exact List.forall_mem_map.2 h.params
  · obtain ⟨s, hs, hn⟩ := List.mem_filterMap.1 hn
    refine hgiven s hs n ?_
    cases s <;> simp_all [Stmt.binds?, Stmt.given]
  · exact mem_parts.2 ⟨e, he, hmem⟩

end Proc

/-! ## Catalogs -/

theorem Proc.spelled_of_parseAll {s : String} {ps : List Proc} (h : Proc.parseAll s = .ok ps) :
    ∀ p ∈ ps, p.Spelled := by
  unfold Proc.parseAll at h
  simp only at h
  split at h
  next procs rest hread =>
    cases h
    have hall : ∀ p ∈ procs, p.Spelled := by
      refine Yields.iterate (P := fun ps => ∀ p ∈ ps, Proc.Spelled p) (fun acc hacc => ?_) ?_ _ _ _
        hread
      · refine .after fun _ => .after fun next => ?_
        split
        · exact .pure (by simp)
        · refine yields_procedure.bind fun p hp => .pure ?_
          rintro _ ⟨⟩
          exact List.forall_mem_cons.2 ⟨hp, hacc⟩
      · exact nofun
    exact fun p hp => hall p (List.mem_reverse.1 hp)
  · cases h

theorem Catalog.templates_of_register {c c' : Catalog} {t : Proc} (h : c.register t = .ok c') :
    c'.templates = c.templates ++ [t] := by
  unfold register at h
  simp only at h
  split at h
  · cases h
  split at h
  · cases h
  obtain ⟨-, -, h⟩ := except_bind_eq_ok.1 h
  split at h
  · cases h
  · cases h
    rfl

theorem Catalog.mem_of_registerAll {ts : List Proc} {c : Catalog} {t : Proc}
    (h : t ∈ (c.registerAll ts).1.templates) : t ∈ c.templates ∨ t ∈ ts := by
  induction ts generalizing c with
  | nil => exact .inl h
  | cons u ts ih =>
    rw [registerAll] at h
    split at h
    next c' hc' =>
      obtain h | h := ih h
      · rw [templates_of_register hc', List.mem_append, List.mem_singleton] at h
        exact h.imp_right fun heq => List.mem_cons.2 (.inl heq)
      · exact .inr (.tail _ h)
    · exact .inl h

/-- The templates of a text have identifiers for names. -/
theorem Catalog.isIdent_of_load {source : String} {c : Catalog} (h : Catalog.load source = .ok c) :
    ∀ t ∈ c.templates, isIdent t.name = true := by
  intro t ht
  unfold load extend at h
  cases hparse : Proc.parseAll source with
  | error e =>
    rw [hparse] at h
    cases h
  | ok ts =>
    simp only [hparse] at h
    split at h
    next c' hc' =>
      cases h
      have hreg : (({} : Catalog).registerAll ts).1 = c := congrArg Prod.fst hc'
      rw [← hreg] at ht
      obtain ht | ht := mem_of_registerAll ht
      · cases ht
      · exact (Proc.spelled_of_parseAll hparse t ht).name
    · cases h

/-! ## Schedules -/

namespace Step

/-- The names that the step introduces. -/
def newNames : Step → List String
  | rename name => [name]
  | split _ _ outer inner _ => [outer, inner]
  | stageReduction name _ | bindExpr name _ => [name]
  | _ => []

variable {c : Catalog} {p q : Proc}

/-- One case for each step. -/
theorem printable_apply (hc : ∀ t ∈ c.templates, isIdent t.name = true) {step : Step}
    (hnames : ∀ n ∈ step.newNames, isIdent n = true) (hp : p.Printable)
    (h : step.apply c p = .ok q) : q.Printable := by
  have hbody := hp.body
  cases step with
  | rename name =>
    cases h
    exact ⟨hp.valid, hnames name (.head _), hp.params, hbody⟩
  | split loop factor outer inner perfect =>
    have houter := hnames outer (by simp [newNames])
    have hinner := hnames inner (by simp [newNames])
    exact (Proc.remade_split hbody houter hinner h).printable hp
  | reorder outer inner => exact (Proc.remade_reorder hbody (refusable_eq_ok.1 h)).printable hp
  | fissionAfter stmt lifts =>
    exact (Proc.remade_fissionAfter hbody (refusable_eq_ok.1 h)).printable hp
  | liftAlloc alloc lifts keepDims =>
    exact (Proc.remade_liftAlloc hbody (refusable_eq_ok.1 h)).printable hp
  | stageReduction name reduction =>
    have hname := hnames name (.head _)
    exact (Proc.remade_stageReduction hbody hname (refusable_eq_ok.1 h)).printable hp
  | bindExpr name expr =>
    have hname := hnames name (.head _)
    exact (Proc.remade_bindExpr hbody hname (refusable_eq_ok.1 h)).printable hp
  | setMemory buffer space =>
    exact (Proc.remade_setMemory hbody (refusable_eq_ok.1 h)).printable hp
  | parToSeq loop => exact (Proc.remade_parToSeq hbody (refusable_eq_ok.1 h)).printable hp
  | replace template selector =>
    exact (Proc.remade_replace hc hbody (refusable_eq_ok.1 h)).printable hp
  | replaceAll template => exact (Proc.remade_replaceAll hc hp.valid hbody h).printable hp
  | unroll loop => exact (Proc.remade_unroll hbody (refusable_eq_ok.1 h)).printable hp
  | unrollBuffer alloc dim =>
    exact (Proc.remade_unrollBuffer hbody (refusable_eq_ok.1 h)).printable hp
  | simplify => exact (Proc.remade_simplify hp.valid hbody h).printable hp

end Step

theorem eq_ok_of_toOption {ε α : Type} {x : Except ε α} {a : α} (h : x.toOption = some a) :
    x = .ok a := by
  cases x with
  | error e => cases h
  | ok b =>
    cases h
    rfl

namespace Schedule

variable {c : Catalog} {p : Proc}

/-- By induction on the schedule: each step starts from a kernel that can be printed. -/
theorem printable_replayFrom (hc : ∀ t ∈ c.templates, isIdent t.name = true) {s : Schedule}
    (hnames : ∀ step ∈ s, ∀ n ∈ step.newNames, isIdent n = true) (hp : p.Printable) (index : Nat) :
    ∀ e ∈ (s.replayFrom c index p).trace, e.kernel.Printable := by
  induction s generalizing index p with
  | nil => exact List.forall_mem_nil _
  | cons step rest ih =>
    obtain ⟨hstep, hrest⟩ := List.forall_mem_cons.1 hnames
    unfold replayFrom
    cases happly : step.apply c p with
    | error failure => exact List.forall_mem_nil _
    | ok kernel =>
      have hkernel := Step.printable_apply hc hstep hp happly
      exact List.forall_mem_cons.2 ⟨hkernel, ih hrest hkernel _⟩

/-- **Scheduling stays within the language, but for the least word.** Take a valid kernel and a
catalog that were read from text, and a schedule that introduces identifiers only. The text of each
kernel along the schedule without the least word is accepted, and read as `Proc.asRead` says. -/
theorem replay_parse_text {source templates : String} {p : Proc} {c : Catalog} {s : Schedule}
    (hp : Proc.parse source = .ok p) (hvalid : p.problems none = [])
    (hc : Catalog.load templates = .ok c)
    (hnames : ∀ step ∈ s, ∀ n ∈ step.newNames, isIdent n = true) :
    ∀ e ∈ (s.replay c p).trace, .int Int64.minValue ∉ e.kernel.parts →
      Proc.parse e.kernel.text = .ok e.kernel.asRead.resolve := by
  intro e he hleast
  have hprintable := printable_replayFrom (Catalog.isIdent_of_load hc) hnames
    (Proc.printable_of_parse hp hvalid) 0 e he
  exact Proc.parse_text_eq_asRead (hprintable.spelled hleast)

/-- Clear sixteen elements by two calls: all kernels on the way are read back. -/
theorem cleared_parse_text :
    let source := "proc f(x: f32[16] @ DRAM) \x7b for i in seq(16) \x7b x[i] = 0.0; \x7d \x7d"
    let templates := "@instr(\"clear\") proc clear(dst: f32[8] @ DRAM) \x7b" ++
      " for k in seq(8) \x7b dst[k] = 0.0; \x7d \x7d"
    let s : Schedule := [.split "i" 8 "io" "ii" true, .replaceAll "clear", .rename "g"]
    ∃ p c, Proc.parse source = .ok p ∧ p.problems none = [] ∧ Catalog.load templates = .ok c ∧
      (∀ step ∈ s, ∀ n ∈ step.newNames, isIdent n = true) ∧
      (s.replay c p).trace.length = 3 ∧
      ∀ e ∈ (s.replay c p).trace, .int Int64.minValue ∉ e.kernel.parts ∧
        Proc.parse e.kernel.text = .ok e.kernel.asRead.resolve := by
  intro source templates s
  have hrun : ((Proc.parse source).toOption.bind fun p =>
      (Catalog.load templates).toOption.map fun c => ((p.problems none).isEmpty,
        (s.replay c p).trace.map (·.kernel.parts.all (·.int? ≠ some Int64.minValue)))) =
      some (true, [true, true, true]) := by
    decide +kernel
  have hnames : ∀ step ∈ s, ∀ n ∈ step.newNames, isIdent n = true := by decide
  obtain ⟨p, hp, hrun⟩ := Option.bind_eq_some_iff.1 hrun
  obtain ⟨c, hc, hrun⟩ := Option.map_eq_some_iff.1 hrun
  obtain ⟨hvalid, htrace⟩ := Prod.mk.inj hrun
  have hp := eq_ok_of_toOption hp
  have hvalid := List.isEmpty_iff.1 hvalid
  have hc := eq_ok_of_toOption hc
  refine ⟨p, c, hp, hvalid, hc, hnames, ?_, fun e he => ?_⟩
  · simpa using congrArg List.length htrace
  · have hleast : .int Int64.minValue ∉ e.kernel.parts := by
      intro hmem
      have htrue : ∀ b ∈ [true, true, true], b = true := by decide
      rw [← htrace] at htrue
      have hall := htrue _ (List.mem_map_of_mem he)
      exact absurd (List.all_eq_true.1 hall _ hmem) (by decide)
    exact ⟨hleast, replay_parse_text hp hvalid hc hnames e he hleast⟩

/-- A difference that is the least word is folded to a literal, and its text is refused. -/
theorem folded_least_word_not_read :
    let source := "proc f(x: f32[1] @ DRAM) \x7b x[-9223372036854775807 - 1] = 0.0; \x7d"
    let folded := "proc f(x: f32[1] @ DRAM) \x7b\n  x[-9223372036854775808] = 0.0;\n\x7d"
    ∃ p c, Proc.parse source = .ok p ∧ p.problems none = [] ∧
      (∀ x, .float x ∈ p.parts → x.isFinite = true) ∧ Catalog.load "" = .ok c ∧
      (Schedule.replay [.simplify] c p).failed.isNone = true ∧
      (Schedule.replay [.simplify] c p).trace.map (·.kernel.text) = [folded] ∧
      (Proc.parse folded).isOk = false := by
  intro source folded
  have hrun : ((Proc.parse source).toOption.bind fun p => (Catalog.load "").toOption.map fun c =>
      ((p.problems none).isEmpty, p.parts.all (·.isFaithful),
        (Schedule.replay [.simplify] c p).failed.isNone,
        (Schedule.replay [.simplify] c p).trace.map (·.kernel.text))) =
      some (true, true, true, [folded]) := by
    decide +kernel
  have hrefused : (Proc.parse folded).isOk = false := by decide +kernel
  obtain ⟨p, hp, hrun⟩ := Option.bind_eq_some_iff.1 hrun
  obtain ⟨c, hc, hrun⟩ := Option.map_eq_some_iff.1 hrun
  simp only [Prod.mk.injEq, List.isEmpty_iff] at hrun
  obtain ⟨hvalid, hfinite, hfailed, htrace⟩ := hrun
  exact ⟨p, c, eq_ok_of_toOption hp, hvalid, fun x hx => List.all_eq_true.1 hfinite _ hx,
    eq_ok_of_toOption hc, hfailed, htrace, hrefused⟩

end Schedule

end LoopNest
