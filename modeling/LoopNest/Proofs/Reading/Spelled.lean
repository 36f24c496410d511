import LoopNest.Proofs.Contract.Simplify
import LoopNest.Proofs.Reading.Kernel

/-!
# What is read can be spelled

Every name that a parser answers with is an identifier, and no integer is the least word: digits
stand for what is not negative, and a sign makes that at most its opposite (`Proc.spelled_of_parse`).
`Yields` says what holds of every answer of a parser; it goes along with the ways to put parsers
together.
-/

namespace LoopNest

open Text Text.Parser

variable {sep : Parser Unit} {body : Block}

namespace Text.Parser

variable {α β : Type} {P : α → Prop} {Q : β → Prop} {p q : Parser α}

/-- Whatever the parser reads has the property. -/
def Yields (P : α → Prop) (p : Parser α) : Prop := ∀ s a rest, p s = .ok a rest → P a

theorem Yields.of_true (p : Parser α) : Yields (fun _ => True) p := fun _ _ _ _ => trivial

theorem Yields.mono {P' : α → Prop} (h : Yields P p) (himp : ∀ a, P a → P' a) : Yields P' p :=
  fun s a rest hs => himp a (h s a rest hs)

theorem Yields.pure {a : α} (h : P a) : Yields P (Pure.pure a : Parser α) := by
  rintro s _ rest ⟨⟩
  exact h

theorem Yields.fail : Yields P (fail : Parser α) := by
  rintro s a rest ⟨⟩

theorem Yields.bind {f : α → Parser β} (h : Yields P p) (hf : ∀ a, P a → Yields Q (f a)) :
    Yields Q (p >>= f) := by
  intro s b rest hs
  change Parser.bind p f s = _ at hs
  rw [Parser.bind] at hs
  split at hs
  next a r ha => exact hf a (h s a r ha) r b rest hs
  next => cases hs

/-- What the first parser reads does not matter. -/
theorem Yields.after {f : α → Parser β} (hf : ∀ a, Yields Q (f a)) : Yields Q (p >>= f) :=
  (Yields.of_true p).bind fun a _ => hf a

theorem Yields.orElse (hp : Yields P p) (hq : Yields P q) : Yields P (p.orElse q) := by
  intro s a rest hs
  rw [Parser.orElse] at hs
  split at hs
  next ha =>
    cases hs
    exact hp s _ _ ha
  next => exact hq s a rest hs

theorem Yields.optional (h : Yields P p) : Yields (fun o => ∀ a ∈ o, P a) (optional p) := by
  intro s o rest hs
  rw [Parser.optional] at hs
  split at hs
  next ha =>
    cases hs
    rintro _ ⟨⟩
    exact h s _ _ ha
  next =>
    cases hs
    rintro _ ⟨⟩

theorem Yields.ofOption {o : Option α} (h : ∀ a ∈ o, P a) : Yields P (ofOption o) := by
  cases o with
  | none => exact Yields.fail
  | some a => exact .pure (h a rfl)

/-- A loop keeps what each of its steps keeps. -/
theorem Yields.iterate {step : α → Parser (Option α)}
    (hstep : ∀ a, P a → Yields (fun o => ∀ b ∈ o, P b) (step a)) {a : α} (ha : P a) :
    Yields P (iterate step a) := by
  suffices hbound : ∀ bound : List Char, ∀ a, P a → Yields P (iterateUpTo step bound a) from
    fun s b rest hs => hbound (' ' :: s) a ha s b rest hs
  intro bound
  induction bound with
  | nil => exact fun a ha => .pure ha
  | cons c bound ih =>
    intro a ha s b rest hs
    rw [iterateUpTo] at hs
    beta_reduce at hs
    split at hs
    next a' r hstep' => exact ih a' (hstep a ha s _ r hstep' a' rfl) r b rest hs
    next r hdone =>
      cases hs
      exact ha
    next => cases hs

theorem Yields.moreSeparated (h : Yields P p) {start : List α} (hstart : ∀ a ∈ start, P a) :
    Yields (fun l => ∀ a ∈ l, P a) (moreSeparated p sep start) := by
  refine Yields.iterate (fun acc hacc => ?_) hstart
  have hnext : Yields P (do sep; p) := .after fun _ => h
  refine hnext.optional.bind fun o ho => .pure fun l hl => ?_
  obtain ⟨a, rfl, rfl⟩ := Option.map_eq_some_iff.1 hl
  exact List.forall_mem_cons.2 ⟨ho a rfl, hacc⟩

theorem Yields.separated1 (h : Yields P p) : Yields (fun l => ∀ a ∈ l, P a) (separated1 p sep) := by
  refine h.bind fun a ha => ?_
  refine (h.moreSeparated (List.forall_mem_singleton.2 ha)).bind fun l hl => .pure ?_
  simpa using hl

theorem Yields.separated (h : Yields P p) : Yields (fun l => ∀ a ∈ l, P a) (separated p sep) := by
  refine h.optional.bind fun o ho => ?_
  cases o with
  | none => exact .pure (by simp)
  | some a =>
    refine (h.moreSeparated (List.forall_mem_singleton.2 (ho a rfl))).bind fun l hl =>
      .pure ?_
    simpa using hl

end Text.Parser

namespace Text

variable {α : Type} {P : α → Prop} {p : Parser α}

theorem yields_ident : Yields (fun n => isIdent n = true) ident := by
  have hfirst : Yields (fun c => isIdentStart c = true) (satisfy isIdentStart) := by
    intro s c rest hs
    cases s with
    | nil => cases hs
    | cons d ds =>
      rw [satisfy] at hs
      split at hs
      next hd =>
        cases hs
        exact hd
      next => cases hs
  have hmore : Yields (fun cs => ∀ c ∈ cs, isIdentRest c = true) (takeWhile isIdentRest) := by
    rintro s _ rest ⟨⟩ c hc
    exact List.mem_takeWhile_imp hc
  refine hfirst.bind fun c hc => hmore.bind fun cs hcs => .pure ?_
  exact isIdent_iff.2 ⟨c, cs, String.toList_ofList, hc, hcs⟩

theorem Yields.spaced (h : Yields P p) : Yields P (spaced p) :=
  .after fun _ => h.bind fun _ ha => .after fun _ => .pure ha

theorem Yields.commaList (h : Yields P p) : Yields (fun l => ∀ a ∈ l, P a) (commaList p) :=
  (Yields.spaced h).separated1

theorem Yields.enclosed {left right : String} (h : Yields P p) : Yields P (enclosed left p right) :=
  .after fun _ => .after fun _ => h.bind fun _ ha =>
    .after fun _ => .after fun _ => .pure ha

end Text

/-! ## Expressions -/

/-- An unsigned literal can be spelled, and so can its negative. -/
theorem yields_number : Yields (fun e => e.Spelled ∧ (negateLiteral e).Spelled) number := by
  have hfloat : ∀ x, (Expr.float x).Spelled := by simp [Expr.Spelled, Expr.parts, Expr.collect,
    Expr.isSpelled]
  refine .after fun digits => .after fun fraction => .after fun exponent => ?_
  split
  · refine Yields.ofOption fun e he => ?_
    obtain ⟨n, hn, rfl⟩ := Option.map_eq_some_iff.1 he
    have hvalue := Word.ofInt?_eq_some.1 hn
    have hleast : n ≠ Int64.minValue := by
      rintro rfl
      have hmin : Int64.minValue.toInt = -9223372036854775808 := by decide
      omega
    refine ⟨Expr.spelled_int.2 hleast, Expr.spelled_int.2 fun hneg => ?_⟩
    have hmin : (-n).toInt = -9223372036854775808 := by rw [hneg]; decide
    rw [Expr.toInt_neg_of_ne hleast] at hmin
    have := (Word.toInt_mem n).2
    omega
  · exact .pure ⟨hfloat _, hfloat _⟩

theorem Yields.indices {α : Type} {P : α → Prop} {p : Parser α} (h : Yields P p) :
    Yields (fun l => ∀ a ∈ l, P a) (indices p) := by
  refine .after fun o => ?_
  split
  · exact .pure (by simp)
  · exact (Yields.commaList h).bind fun l hl => .after fun _ => .pure hl

section expressions

variable {inner p : Parser Expr} {op : Parser Op}

theorem Yields.access (h : Yields Expr.Spelled inner) : Yields Expr.Spelled (access inner) := by
  refine yields_ident.bind fun n hn => (Yields.indices h).bind fun idx hidx => ?_
  cases idx with
  | nil => exact .pure (Expr.spelled_var.2 hn)
  | cons e idx => exact .pure (Expr.spelled_read.2 ⟨hn, hidx⟩)

theorem Yields.atom (h : Yields Expr.Spelled inner) : Yields Expr.Spelled (atom inner) :=
  (yields_number.mono fun _ he => he.1).orElse ((Yields.enclosed h).orElse (Yields.access h))

theorem Yields.unary (h : Yields Expr.Spelled inner) : Yields Expr.Spelled (unary inner) := by
  suffices hbound : ∀ bound : List Char, Yields Expr.Spelled (unaryUpTo inner bound) from
    fun s => hbound (' ' :: s) s
  intro bound
  induction bound with
  | nil => exact Yields.fail
  | cons c bound ih =>
    rw [unaryUpTo]
    refine .after fun sign => ?_
    split
    · exact Yields.atom h
    · refine .after fun next => ?_
      split
      · exact yields_number.bind fun e he => .pure he.2
      · exact .after fun _ => ih.bind fun e he => .pure (Expr.spelled_neg.2 he)

theorem Yields.leftAssoc (h : Yields Expr.Spelled p) : Yields Expr.Spelled (leftAssoc p op) := by
  refine h.bind fun e he => Yields.iterate (fun left hleft => ?_) he
  refine .after fun o => ?_
  cases o with
  | none => exact .pure (by simp)
  | some op =>
    refine h.bind fun right hright => .pure ?_
    rintro _ ⟨⟩
    exact Expr.spelled_binary.2 ⟨hleft, hright⟩

theorem Yields.comparison (h : Yields Expr.Spelled inner) :
    Yields Expr.Spelled (comparison inner) := by
  have hside : Yields Expr.Spelled (additive inner) :=
    Yields.leftAssoc (Yields.leftAssoc (Yields.unary h))
  refine hside.bind fun left hleft => .after fun o => ?_
  cases o with
  | none => exact .pure hleft
  | some op =>
    exact hside.bind fun right hright => .pure (Expr.spelled_binary.2 ⟨hleft, hright⟩)

theorem yields_expr : Yields Expr.Spelled expr := by
  suffices hbound : ∀ bound : List Char, Yields Expr.Spelled (exprUpTo bound) from
    fun s => hbound (' ' :: s) s
  intro bound
  induction bound with
  | nil => exact Yields.fail
  | cons c bound ih => exact Yields.leftAssoc (Yields.comparison ih)

end expressions

/-! ## Declarations and statements -/

theorem yields_declOf (n : String) :
    Yields (fun d => d.name = n ∧ ∀ e ∈ d.shape, e.Spelled) (declOf n) := by
  refine .after fun ty => (Yields.indices yields_expr).bind fun shape hshape => ?_
  refine .after fun o => ?_
  split <;> exact .after fun mem => .pure ⟨rfl, hshape⟩

theorem yields_param : Yields Param.Spelled param := by
  refine yields_ident.bind fun n hn => .after fun _ => .after fun _ =>
    .after fun _ => .after fun isSize => ?_
  split
  · refine .pure ⟨hn, ?_⟩
    rintro _ ⟨⟩
  · refine (yields_declOf n).bind fun d hd => .pure ⟨?_, ?_⟩
    · show isIdent d.name = true
      rw [hd.1]
      exact hn
    · rintro _ ⟨⟩
      exact hd.2

theorem yields_window : Yields (fun w => isIdent w.buf = true ∧ ∀ e ∈ w.exprs, e.Spelled)
    window := by
  have hdim : Yields (fun d => ∀ e ∈ d.exprs, e.Spelled) windowDim := by
    refine yields_expr.bind fun lo hlo => .after fun colon => ?_
    split
    · refine .after fun _ => yields_expr.bind fun hi hhi => .pure ?_
      exact List.forall_mem_cons.2 ⟨hlo, List.forall_mem_singleton.2 hhi⟩
    · exact .pure (List.forall_mem_singleton.2 hlo)
  refine yields_ident.bind fun n hn => (Yields.indices hdim).bind fun dims hdims =>
    .pure ⟨hn, fun e he => ?_⟩
  obtain ⟨d, hd, hde⟩ := List.mem_flatMap.1 he
  exact hdims d hd e hde

theorem Stmt.spelled_loop {h : Header} (hvar : isIdent h.var = true) (hbound : h.bound.Spelled)
    (hbody : body.Spelled) : (Stmt.loop h body).Spelled :=
  List.forall_mem_cons.2
    ⟨⟨List.forall_mem_singleton.2 hvar, List.forall_mem_singleton.2 hbound⟩, hbody⟩

theorem Stmt.spelled_guard {c : Expr} (hc : c.Spelled) (hbody : body.Spelled) :
    (Stmt.guard c body).Spelled :=
  List.forall_mem_cons.2 ⟨⟨by simp [Stmt.ownNames], List.forall_mem_singleton.2 hc⟩, hbody⟩

theorem Yields.blockOf {inner : Parser Stmt} (h : Yields Stmt.Spelled inner) :
    Yields Block.Spelled (blockOf inner) := by
  have hstep : ∀ acc : Block, (∀ s ∈ acc, s.Spelled) →
      Yields (fun o => ∀ b ∈ o, ∀ s ∈ b, s.Spelled) (blockStep inner acc) := by
    intro acc hacc
    refine .after fun done => ?_
    split
    · exact .pure (by simp)
    · refine h.bind fun s hs => .after fun _ => .pure ?_
      rintro _ ⟨⟩
      exact List.forall_mem_cons.2 ⟨hs, hacc⟩
  refine .after fun _ => .after fun _ => ?_
  refine (Yields.iterate hstep (by simp)).bind fun acc hacc => .after fun _ => .pure ?_
  exact Block.spelled_iff.2 fun s hs => hacc s (List.mem_reverse.1 hs)

theorem Yields.loopStmt {inner : Parser Stmt} (h : Yields Stmt.Spelled inner) :
    Yields Stmt.Spelled (loopStmt inner) := by
  refine .after fun _ => .after fun _ => yields_ident.bind fun n hn => ?_
  refine .after fun _ => .after fun _ => .after fun _ => .after fun par => ?_
  have hrest : ∀ m : Mode, Yields Stmt.Spelled (do
      blanks
      let bound ← enclosed "(" expr ")"
      blanks
      return .loop { var := n, bound, mode := m } (← LoopNest.blockOf inner)) := fun m =>
    .after fun _ => (Yields.enclosed yields_expr).bind fun bound hbound =>
      .after fun _ => (Yields.blockOf h).bind fun body hbody =>
        .pure (Stmt.spelled_loop hn hbound hbody)
  split <;> exact .after hrest

theorem Yields.guardStmt {inner : Parser Stmt} (h : Yields Stmt.Spelled inner) :
    Yields Stmt.Spelled (guardStmt inner) := by
  refine .after fun _ => .after fun _ => yields_expr.bind fun c hc => ?_
  refine .after fun _ => (Yields.blockOf h).bind fun body hbody => ?_
  exact .pure (Stmt.spelled_guard hc hbody)

theorem yields_simpleRest {n : String} (hn : isIdent n = true) :
    Yields Stmt.Spelled (simpleRest n) := by
  refine .after fun colon => ?_
  split
  · refine .after fun _ => (yields_declOf n).bind fun d hd => .pure ?_
    refine List.forall_mem_singleton.2 ⟨List.forall_mem_singleton.2 ?_, hd.2⟩
    rw [hd.1]
    exact hn
  · refine .after fun paren => ?_
    split
    · have hargs : Yields (fun l => ∀ w ∈ l, isIdent w.buf = true ∧ ∀ e ∈ w.exprs, e.Spelled)
          (enclosed "(" (separated (spaced window) (Parser.text ",")) ")") :=
        Yields.enclosed (Yields.separated (Yields.spaced yields_window))
      refine hargs.bind fun args hw => .pure (List.forall_mem_singleton.2 ⟨?_, ?_⟩)
      · refine List.forall_mem_cons.2 ⟨hn, fun b hb => ?_⟩
        obtain ⟨w, hmem, rfl⟩ := List.mem_map.1 hb
        exact (hw w hmem).1
      · intro e he
        obtain ⟨w, hmem, hwe⟩ := List.mem_flatMap.1 he
        exact (hw w hmem).2 e hwe
    · refine (Yields.indices yields_expr).bind fun idx hidx => .after fun _ => ?_
      refine .after fun u => .after fun _ => yields_expr.bind fun rhs hrhs => ?_
      refine .pure (List.forall_mem_singleton.2 ⟨List.forall_mem_singleton.2 hn, ?_⟩)
      exact List.forall_mem_append.2 ⟨hidx, List.forall_mem_singleton.2 hrhs⟩

theorem yields_stmt : Yields Stmt.Spelled stmt := by
  have hsimple : Yields Stmt.Spelled simpleStmt :=
    yields_ident.bind fun n hn => .after fun _ => (yields_simpleRest hn).bind fun s hs =>
      .after fun _ => .after fun _ => .pure hs
  suffices hbound : ∀ bound : List Char, Yields Stmt.Spelled (stmtUpTo bound) from
    fun s => hbound (' ' :: s) s
  intro bound
  induction bound with
  | nil => exact Yields.fail
  | cons c bound ih => exact (Yields.loopStmt ih).orElse ((Yields.guardStmt ih).orElse hsimple)

/-! ## Resolved names -/

namespace Stmt

theorem exprs_resolve (buffers : List String) (s : Stmt) :
    (s.resolve buffers).exprs = s.exprs.map (·.resolve buffers) := by
  cases s with
  | call t args =>
    simp [resolve, exprs, List.flatMap_map, List.map_flatMap, Window.exprs_mapExprs]
  | _ => simp [resolve, exprs]

theorem body?_resolve (buffers : List String) (s : Stmt) :
    (s.resolve buffers).body? = s.body?.map (resolveAll buffers) := by
  cases s <;> rfl

theorem ownNames_resolve (buffers : List String) (s : Stmt) :
    (s.resolve buffers).ownNames = s.ownNames := by
  cases s <;> simp [resolve, ownNames, Window.mapExprs, Function.comp_def]

end Stmt

theorem Expr.spelled_resolve {e : Expr} (h : e.Spelled) (buffers : List String) :
    (e.resolve buffers).Spelled := by
  induction e with
  | var v =>
    rw [resolve, rebuild]
    split
    · exact spelled_read.2 ⟨spelled_var.1 h, by simp⟩
    · exact h
  | int n | float x => exact h
  | read b idx ih =>
    rw [resolve, rebuild, rebuildAll_eq_map]
    have hidx := spelled_read.1 h
    refine spelled_read.2 ⟨hidx.1, fun e he => ?_⟩
    obtain ⟨i, hi, rfl⟩ := List.mem_map.1 he
    exact ih i hi (hidx.2 i hi)
  | binary op l r ihl ihr =>
    have hsides := spelled_binary.1 h
    exact spelled_binary.2 ⟨ihl hsides.1, ihr hsides.2⟩
  | neg e ih => exact spelled_neg.2 (ih (spelled_neg.1 h))

theorem Block.spelled_resolveAll {b : Block} (h : b.Spelled) (buffers : List String) :
    Block.Spelled (Stmt.resolveAll buffers b) := by
  induction b using Block.induction generalizing buffers with
  | nil => exact h
  | cons s rest ihBody ih =>
    obtain ⟨hs, hbody, hrest⟩ := Block.forall_nested_cons.1 h
    rw [Stmt.resolveAll]
    refine Block.forall_nested_cons.2 ⟨⟨?_, ?_⟩, ?_, ih hrest _⟩
    · rw [Stmt.ownNames_resolve]
      exact hs.names
    · rw [Stmt.exprs_resolve]
      rintro _ he
      obtain ⟨e, hmem, rfl⟩ := List.mem_map.1 he
      exact Expr.spelled_resolve (hs.exprs e hmem) _
    · rw [Stmt.body?_resolve]
      rintro _ hb
      obtain ⟨body, hbody?, rfl⟩ := Option.map_eq_some_iff.1 hb
      exact ihBody body hbody? (hbody body hbody?) _

/-! ## Kernels -/

theorem yields_procedure : Yields Proc.Spelled procedure := by
  have hrest : ∀ instr : Option String, Yields Proc.Spelled (do
      keyword "proc"
      blanks
      let name ← ident
      blanks
      let params ← enclosed "(" (separated (spaced param) (Parser.text ",")) ")"
      blanks
      let body ← block
      return Proc.resolve { name, params, body, instr }) := by
    intro instr
    have hparams : Yields (fun l => ∀ a ∈ l, Param.Spelled a)
        (enclosed "(" (separated (spaced param) (Parser.text ",")) ")") :=
      Yields.enclosed (Yields.separated (Yields.spaced yields_param))
    refine .after fun _ => .after fun _ => yields_ident.bind fun n hn => ?_
    refine .after fun _ => hparams.bind fun params hps => .after fun _ => ?_
    refine (Yields.blockOf yields_stmt).bind fun body hbody => .pure ?_
    exact ⟨hn, hps, Block.spelled_resolveAll hbody _⟩
  refine .after fun o => ?_
  split
  · exact .after fun _ => .after fun t => .after fun _ => hrest (some t)
  · exact hrest none

/-- **What is read as a kernel can be spelled.** -/
theorem Proc.spelled_of_parse {s : String} {p : Proc} (h : Proc.parse s = .ok p) : p.Spelled := by
  rw [Proc.parse, whole] at h
  split at h
  next => cases h
  next hs =>
    cases h
    exact Yields.spaced yields_procedure _ _ _ hs
  next => cases h

end LoopNest
