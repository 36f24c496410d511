import LoopNest.Proofs.Reading.Stmt

/-!
# Kernels are read back

The text of a kernel whose names are identifiers and whose integers are not the least word is
always accepted (`Proc.parse_text_eq_asRead`). What comes back is the kernel with each literal and
each scalar read as its spelling is understood (`Proc.asRead`), its bare names resolved.
-/

namespace LoopNest

open Text Text.Parser

namespace Proc

/-- Everything in the kernel can be spelled. -/
structure Spelled (p : Proc) : Prop where
  name : isIdent p.name = true
  params : ∀ a ∈ p.params, a.Spelled
  body : p.body.Spelled

/-- What the text of the kernel is read as, before names are resolved. -/
def asRead (p : Proc) : Proc :=
  { p with params := p.params.map (·.asRead), body := p.body.map (·.asRead) }

theorem toList_text (p : Proc) : p.text.toList =
    (match p.instr with
      | some s => "@instr".toList ++ '(' :: ((quote s).toList ++ [')', '\n'])
      | none => []) ++ ("proc".toList ++ ' ' :: (p.name.toList ++ '(' ::
        ((commas (p.params.map (·.text))).toList ++ ')' :: ' ' :: '\x7b' :: '\n' ::
          ((Stmt.lines 2 p.body).toList ++ ((indentation 0).toList ++ ['\x7d']))))) := by
  cases h : p.instr <;> simp [text, h, indentation]

/-- The kernel without its emission text. -/
theorem procedure_none {p : Proc} (h : p.Spelled) (rest : List Char) :
    (do
      keyword "proc"
      blanks
      let name ← ident
      blanks
      let params ← enclosed "(" (separated (spaced param) (Parser.text ",")) ")"
      blanks
      let body ← block
      return Proc.resolve { name, params, body, instr := p.instr } : Parser Proc)
      ("proc".toList ++ ' ' :: (p.name.toList ++ '(' ::
        ((commas (p.params.map (·.text))).toList ++ ')' :: ' ' :: '\x7b' :: '\n' ::
          ((Stmt.lines 2 p.body).toList ++ ((indentation 0).toList ++ '\x7d' :: rest))))) =
      .ok p.asRead.resolve rest := by
  have hspace : ∀ r, Ends (' ' :: r) := ends_cons (by decide)
  have hopen : ∀ r, Ends ('(' :: r) := ends_cons (by decide)
  have hparen : ∀ r, Solid ('(' :: r) := fun r => rfl
  have hbrace : ∀ r, Solid ('\x7b' :: r) := fun r => rfl
  have hnone : ∀ r, Fails param (')' :: r) := fun r => (ident_fails (forall_head (by decide))).bind
  have hparams := enclosed_commas p.params (fun a ha r hr => param_append (h.params a ha) hr)
    (fun a ha => Param.solid_text (h.params a ha)) hnone
  have hspelled := Block.spelled_iff.1 h.body
  have hbody : ∀ rest, block ('\x7b' :: '\n' :: ((Stmt.lines 2 p.body).toList ++
      ((indentation 0).toList ++ '\x7d' :: rest))) = .ok (p.body.map (·.asRead)) rest :=
    blockOf_append (fun s hs r => stmt_append (hspelled s hs) 2 r)
      (fun s hs => Stmt.start_text (Stmt.SpelledHere.of_spelled (hspelled s hs)) 2) 0
  refine (bind_ok (keyword_append "proc" (hspace _))).trans ?_
  refine (bind_ok (blanks_space (solid_ident h.name _))).trans ?_
  refine (bind_ok (ident_append h.name (hopen _))).trans ?_
  refine (bind_ok (blanks_of_solid (hparen _))).trans ?_
  refine (bind_ok (hparams _)).trans ?_
  refine (bind_ok (blanks_space (hbrace _))).trans ?_
  exact bind_ok (hbody rest)

theorem procedure_append {p : Proc} (h : p.Spelled) :
    procedure p.text.toList = .ok p.asRead.resolve [] := by
  have hread := procedure_none h []
  rw [toList_text]
  cases hinstr : p.instr with
  | none =>
    rw [hinstr] at hread
    have hnone : ∀ r, Fails (Parser.text "@instr") ("proc".toList ++ r) := fun r => ⟨_, rfl⟩
    exact (bind_ok (optional_of_fails (hnone _))).trans hread
  | some t =>
    rw [hinstr] at hread
    have hparen : ∀ r, Solid ('(' :: r) := fun r => rfl
    have hquote : ∀ r, Solid ((quote t).toList ++ r) := by
      intro r
      rw [quote_toList]
      rfl
    have hproc : ∀ r, Solid ("proc".toList ++ r) := solid_ident (by decide)
    have hfeed : ∀ {r}, Solid r → blanks ('\n' :: r) = .ok () r :=
      blanks_append (w := ['\n']) (forall_mem_of_all (by decide))
    simp only [List.append_assoc, List.cons_append, List.nil_append]
    refine (bind_ok (optional_ok (text_append "@instr" _))).trans ?_
    refine (bind_ok (blanks_of_solid (hparen _))).trans ?_
    refine (bind_ok (enclosed_ok (hquote _) (quoted_append t _))).trans ?_
    exact (bind_ok (hfeed (hproc _))).trans hread

/-- **What the text of a kernel is read as.** -/
theorem parse_text_eq_asRead {p : Proc} (h : p.Spelled) :
    Proc.parse p.text = .ok p.asRead.resolve := by
  have hsolid : Solid p.text.toList := by
    rw [toList_text]
    cases p.instr <;> rfl
  have hread : spaced procedure p.text.toList = .ok p.asRead.resolve [] :=
    spaced_ok (blanks_of_solid hsolid) (procedure_append h) solid_nil
  rw [Proc.parse, whole, hread]

end Proc

end LoopNest
