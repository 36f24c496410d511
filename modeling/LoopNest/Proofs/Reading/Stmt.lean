import LoopNest.Proofs.Reading.Simple

/-!
# Statements are read back

A statement is read from its text as itself, with its expressions as they are read
(`stmt_append`), whatever follows: it ends with a semicolon or a brace. A name that is spelled like
a keyword is no obstacle: the parser of the loop or the guard gives up behind it, and the statement
is read as the store, allocation or call that it is (`loopStmt_fails`, `guardStmt_fails`).
-/

namespace LoopNest

open Text Text.Parser Stmt

variable {idx : List Expr} {w : Window} {bound : List Char} {args : List Window}

/-! ## Names spelled like keywords -/

theorem ident_unique {n m : String} {s s' : List Char} (hn : isIdent n = true)
    (hm : isIdent m = true) (hs : Ends s) (hs' : Ends s') (h : n.toList ++ s = m.toList ++ s') :
    n = m ∧ s = s' := by
  have hread := ident_append hn hs
  rw [h, ident_append hm hs', Parsed.ok.injEq] at hread
  exact ⟨hread.1.symm, hread.2.symm⟩

theorem keyword_fails_of_ne {n word : String} {s : List Char} (hn : isIdent n = true)
    (hword : isIdent word = true) (hs : Ends s) (hne : n ≠ word) :
    Fails (keyword word) (n.toList ++ s) :=
  keyword_fails fun _ heq hrest => hne (ident_unique hn hword hs hrest heq).1

variable {inner : Parser Stmt} {n : String} {s s' : List Char}

/-- What starts with the keyword fails on a name, or behind it if the name is spelled like it. -/
theorem keyword_bind_fails {α : Type} {word : String} {f : Unit → Parser α} (hn : isIdent n = true)
    (hs : Ends s) (hword : isIdent word = true) (h : n = word → Fails (f ()) s) :
    Fails (keyword word >>= f) (n.toList ++ s) := by
  by_cases heq : n = word
  · subst heq
    exact Fails.bind_of_ok (keyword_append n hs) (h rfl)
  · exact (keyword_fails_of_ne hn hword hs heq).bind

/-- No loop starts with a name that no other name follows. -/
theorem loopStmt_fails (hn : isIdent n = true) (hs : Ends s) (hblanks : blanks s = .ok () s')
    (hnext : ∀ c ∈ s'.head?, isIdentStart c = false) : Fails (loopStmt inner) (n.toList ++ s) :=
  keyword_bind_fails hn hs (by decide) fun _ => Fails.bind_of_ok hblanks (ident_fails hnext).bind

/-- No guard starts with a name that no condition follows. -/
theorem guardStmt_fails (hn : isIdent n = true) (hs : Ends s) (hblanks : blanks s = .ok () s')
    (hnext : n = "if" → Fails (do
      let cond ← expr
      blanks
      return Stmt.guard cond (← blockOf inner)) s') :
    Fails (guardStmt inner) (n.toList ++ s) :=
  keyword_bind_fails hn hs (by decide) fun hif => Fails.bind_of_ok hblanks (hnext hif)

theorem conjunction_fails {inner : Parser Expr} (hatom : Fails (atom inner) s)
    (hsign : Fails (text "-") s) : Fails (conjunction inner) s := by
  have hunary : Fails (unary inner) s := by
    obtain ⟨r, hr⟩ := hatom
    exact ⟨r, (unaryUpTo_of_fails ' ' s hsign).trans hr⟩
  have hmultiplicative : Fails (multiplicative inner) s := hunary.bind
  have hadditive : Fails (additive inner) s := hmultiplicative.bind
  have hcomparison : Fails (comparison inner) s := hadditive.bind
  exact hcomparison.bind

theorem exprUpTo_fails (h : ∀ c ∈ s.head?, ¬ Expr.Opens c) (bound : List Char) :
    Fails (exprUpTo bound) s := by
  cases bound with
  | nil => exact ⟨s, rfl⟩
  | cons c bound =>
    have hdigit : ∀ c ∈ s.head?, Decimal.isDigit c = false :=
      fun c hc => Bool.eq_false_iff.2 fun hd => h c hc (.inr (.inl hd))
    have hparen : ∀ c ∈ s.head?, c ≠ '(' := fun c hc heq => h c hc (.inr (.inr (.inr heq)))
    have hstart : ∀ c ∈ s.head?, isIdentStart c = false :=
      fun c hc => Bool.eq_false_iff.2 fun hd => h c hc (.inl hd)
    have hminus : ∀ c ∈ s.head?, c ≠ '-' := fun c hc heq => h c hc (.inr (.inr (.inl heq)))
    exact conjunction_fails (atom_fails hdigit hparen hstart) (text_fails (c := '-') rfl hminus)

theorem expr_fails (h : ∀ c ∈ s.head?, ¬ Expr.Opens c) : Fails expr s := by
  obtain ⟨r, hr⟩ := exprUpTo_fails h (' ' :: s)
  exact ⟨r, hr⟩

/-! ### Calls of a template with such a name -/

/-- A window has points only, or a first interval. -/
theorem WindowDim.points_or_interval (dims : List WindowDim) :
    (∃ idx : List Expr, dims = idx.map .point) ∨
      ∃ (idx : List Expr) (lo hi : Expr) (more : List WindowDim),
        dims = idx.map .point ++ .interval lo hi :: more := by
  induction dims with
  | nil => exact .inl ⟨[], rfl⟩
  | cons d dims ih =>
    cases d with
    | interval lo hi => exact .inr ⟨[], lo, hi, dims, rfl⟩
    | point e =>
      rcases ih with ⟨idx, rfl⟩ | ⟨idx, lo, hi, more, rfl⟩
      · exact .inl ⟨e :: idx, rfl⟩
      · exact .inr ⟨e :: idx, lo, hi, more, rfl⟩

theorem intercalate_append_cons (mark : List Char) (ws : List (List Char)) (w tail : List Char)
    (more : List (List Char)) : mark.intercalate (ws ++ (w ++ tail) :: more) =
      mark.intercalate (ws ++ [w]) ++ (tail ++ more.flatMap (mark ++ ·)) := by
  cases ws with
  | nil | cons u ws => simp [intercalate_cons]

/-- The items before the colon of an interval are read, and then no bracket closes. -/
theorem commaList_interval {inner : Parser Expr} {dims more : List WindowDim} {lo hi : Expr}
    (hdims : dims = idx.map .point ++ .interval lo hi :: more)
    (hread : ∀ e ∈ idx ++ [lo], e.ReadBy inner) (hspelled : ∀ e ∈ idx ++ [lo], e.Spelled)
    (r : List Char) :
    ∃ es s, commaList inner ((commas (dims.map (·.text))).toList ++ r) = .ok es (':' :: s) := by
  have hinterval : (WindowDim.interval lo hi).text.toList =
      lo.text.toList ++ ':' :: hi.text.toList := by simp [WindowDim.text]
  have htext : ∃ s, (commas (dims.map (·.text))).toList ++ r =
      ", ".toList.intercalate ((idx ++ [lo]).map (·.text.toList)) ++ ':' :: s := by
    rw [hdims, toList_commas, List.map_append, List.map_cons, hinterval, intercalate_append_cons]
    refine ⟨hi.text.toList ++ ((more.map (·.text.toList)).flatMap (", ".toList ++ ·) ++ r), ?_⟩
    simp [Function.comp_def, WindowDim.text]
  obtain ⟨s, htext⟩ := htext
  have hmark : ∀ r, r = ':' :: s ∨ ", ".toList <+: r → Follows 1 r ∧ Solid r := by
    rintro r (rfl | ⟨r', rfl⟩)
    · exact ⟨.mark (by decide), rfl⟩
    · exact ⟨.mark (c := ',') (by decide), rfl⟩
  have hcolon : Fails (text ",") (':' :: s) := ⟨_, rfl⟩
  obtain ⟨e, items, hitems⟩ := List.exists_cons_of_ne_nil (List.append_ne_nil_of_right_ne_nil idx
    (List.cons_ne_nil lo []))
  rw [hitems] at htext hread hspelled
  have hlist : commaList inner (", ".toList.intercalate ((e :: items).map (·.text.toList)) ++
      ':' :: s) = .ok ((e :: items).map (·.asRead)) (':' :: s) := by
    refine separated1_append (by decide) ?_ hcolon.bind ?_
    · intro e' he' r hr
      have hmem := List.mem_cons_of_mem e he'
      have hcomma : text "," (", ".toList ++ (e'.text.toList ++ r)) =
          .ok () (' ' :: (e'.text.toList ++ r)) := rfl
      exact (bind_ok hcomma).trans (spaced_ok (blanks_space (Expr.solid_text (hspelled e' hmem) r))
        (hread e' hmem r (hmark r hr).1) (hmark r hr).2)
    · intro r hr
      exact spaced_ok (blanks_of_solid (Expr.solid_text (hspelled e (.head _)) r))
        (hread e (.head _) r (hmark r hr).1) (hmark r hr).2
  exact ⟨_, s, by rw [htext]; exact hlist⟩

theorem Window.length_text {d : WindowDim} (hd : d ∈ w.dims) :
    d.text.toList.length + 2 ≤ w.text.toList.length := by
  have hlen := length_le_intercalate ", ".toList
    (List.mem_map_of_mem (f := fun d : WindowDim => d.text.toList) hd)
  obtain ⟨i, dims, hdims⟩ := List.exists_cons_of_ne_nil (List.ne_nil_of_mem hd)
  rw [Window.text, String.toList_append, List.length_append]
  rw [hdims] at hlen ⊢
  rw [← List.append_nil (brackets ((i :: dims).map (·.text))).toList, toList_brackets_cons,
    toList_commas, List.length_cons, List.length_append, List.length_singleton]
  omega

/-- Read as an expression, a window is refused or ends where it should. -/
theorem window_as_expr (hbuf : isIdent w.buf = true) (h : ∀ e ∈ w.exprs, e.Spelled)
    (hlen : w.text.toList.length < bound.length) :
    (∀ r, EndsItem r → Fails (exprUpTo bound) (w.text.toList ++ r)) ∨
      ∃ v, ∀ r, EndsItem r → exprUpTo bound (w.text.toList ++ r) = .ok v r := by
  rcases WindowDim.points_or_interval w.dims with ⟨idx, hdims⟩ | ⟨idx, lo, hi, more, hdims⟩
  · -- with points only, the window is spelled like a read
    have htext : (Expr.read w.buf idx).text = w.text := by
      rw [Expr.text, Window.text, hdims, Expr.texts_eq_map, List.map_map]
      rfl
    have hspelled : (Expr.read w.buf idx).Spelled := by
      refine Expr.spelled_read.2 ⟨hbuf, fun e he => h e ?_⟩
      rw [Window.exprs, hdims]
      exact List.mem_flatMap.2 ⟨.point e, List.mem_map_of_mem he, .head _⟩
    have hread := Expr.readBy_exprUpTo bound hspelled (htext ▸ hlen)
    refine .inr ⟨(Expr.read w.buf idx).asRead, fun r hr => ?_⟩
    rw [← htext]
    exact hread r (hr.follows 1)
  · cases bound with
    | nil => cases hlen
    | cons c bound =>
      refine .inl fun r hr => ?_
      have hmem : ∀ e ∈ idx ++ [lo], ∃ d ∈ w.dims, e ∈ d.exprs ∧
          e.text.toList.length ≤ d.text.toList.length := by
        intro e he
        rw [hdims]
        rcases List.mem_append.1 he with he | he
        · exact ⟨.point e, by simp [he], .head _, Nat.le_refl _⟩
        · rw [List.mem_singleton.1 he]
          refine ⟨.interval lo hi, by simp, .head _, ?_⟩
          simp [WindowDim.text]
      have hspelled : ∀ e ∈ idx ++ [lo], e.Spelled := by
        intro e he
        obtain ⟨d, hd, hexpr, -⟩ := hmem e he
        exact h e (List.mem_flatMap.2 ⟨d, hd, hexpr⟩)
      have hread : ∀ e ∈ idx ++ [lo], e.ReadBy (exprUpTo bound) := by
        intro e he
        obtain ⟨d, hd, -, hle⟩ := hmem e he
        have hshort := Window.length_text hd
        rw [List.length_cons] at hlen
        exact Expr.readBy_exprUpTo bound (hspelled e he) (by omega)
      -- the indices are read up to the colon of the first interval, where `]` is expected
      obtain ⟨es, s, hlist⟩ := commaList_interval hdims hread hspelled (']' :: r)
      have hindices : Fails (indices (exprUpTo bound))
          ((brackets (w.dims.map (·.text))).toList ++ r) := by
        obtain ⟨d, dims, hcons⟩ := List.exists_cons_of_ne_nil (l := w.dims) (by simp [hdims])
        have hopen : ∀ r, optional (do blanks; text "[" : Parser Unit) ('[' :: r) =
            .ok (some ()) r := fun r => rfl
        rw [hcons] at hlist ⊢
        rw [toList_brackets_cons]
        refine Fails.bind_of_ok (hopen _) (Fails.bind_of_ok hlist (Fails.bind ?_))
        exact ⟨_, rfl⟩
      rw [Window.text, String.toList_append, List.append_assoc]
      refine conjunction_fails ?_ ?_
      · have haccess : Fails (access (exprUpTo bound))
            (w.buf.toList ++ ((brackets (w.dims.map (·.text))).toList ++ r)) :=
          Fails.bind_of_ok (ident_append hbuf (ends_brackets _ hr.ends)) hindices.bind
        obtain ⟨r', hr'⟩ := haccess
        exact ⟨r', (atom_eq_access hbuf _).trans hr'⟩
      · exact text_fails (c := '-') rfl fun c hc =>
          ne_of_isIdentStart (head_ident hbuf _ c hc) (by decide)

theorem paren_fails {inner : Parser Expr} {s : List Char} (hsolid : Solid s)
    (h : Fails (do let a ← inner; blanks; text ")"; return a : Parser Expr) s) :
    Fails (conjunction inner) ('(' :: s) := by
  have hnumber : Fails number ('(' :: s) := number_fails (forall_head (by decide))
  have henclosed : Fails (enclosed "(" inner ")") ('(' :: s) :=
    Fails.bind_of_ok (text_append "(" s) (Fails.bind_of_ok (blanks_of_solid hsolid) h)
  have haccess : Fails (access inner) ('(' :: s) := (ident_fails (forall_head (by decide))).bind
  exact conjunction_fails (hnumber.orElse (henclosed.orElse haccess)) ⟨_, rfl⟩

/-- A call of a template that is named like the keyword is no guard. -/
theorem guard_call_fails {inner : Parser Stmt} (hbufs : ∀ w ∈ args, isIdent w.buf = true)
    (h : ∀ w ∈ args, ∀ e ∈ w.exprs, e.Spelled) (rest : List Char) :
    Fails (do
      let cond ← expr
      blanks
      return Stmt.guard cond (← blockOf inner))
      ('(' :: ((commas (args.map (·.text))).toList ++ ')' :: ';' :: rest)) := by
  -- where the condition is refused, so is the guard
  have hrefused : ∀ s, Solid s → Fails (do let a ← exprUpTo ('(' :: s); blanks; text ")"; return a :
      Parser Expr) s → Fails (do
        let cond ← expr
        blanks
        return Stmt.guard cond (← blockOf inner)) ('(' :: s) := by
    intro s hsolid hs
    obtain ⟨r, hr⟩ := paren_fails hsolid hs
    exact Fails.bind ⟨r, hr⟩
  cases args with
  | nil =>
    refine hrefused (')' :: ';' :: rest) rfl (Fails.bind (exprUpTo_fails (forall_head ?_) _))
    unfold Expr.Opens
    decide
  | cons w ws =>
    obtain ⟨hbuf, -⟩ := List.forall_mem_cons.1 hbufs
    obtain ⟨hw, -⟩ := List.forall_mem_cons.1 h
    rw [toList_commas, List.map_cons, intercalate_cons, List.append_assoc]
    generalize hr : (ws.map (·.text.toList)).flatMap (", ".toList ++ ·) ++ ')' :: ';' :: rest = r
    have hends : EndsItem r := by
      rw [← hr]
      cases ws with
      | nil => exact ⟨')', _, rfl, by decide⟩
      | cons w' ws => exact ⟨',', _, rfl, by decide⟩
    have hlen : w.text.toList.length < ('(' :: (w.text.toList ++ r)).length := by
      rw [List.length_cons, List.length_append]
      omega
    rcases window_as_expr hbuf hw hlen with hfails | ⟨v, hv⟩
    · exact hrefused _ (Window.solid_text hbuf r) (hfails r hends).bind
    · cases ws with
      | nil =>
        obtain rfl : ')' :: ';' :: rest = r := hr
        have hread : Reads (exprUpTo ('(' :: (w.text.toList ++ ')' :: ';' :: rest))) 1
            ('(' :: (w.text.toList ++ [')'])) v :=
          (reads_paren (Window.solid_text hbuf) fun r => hv _ ⟨')', r, rfl, by decide⟩).weaken
            (by decide) (by decide)
        have hexpr : expr ('(' :: (w.text.toList ++ ')' :: ';' :: rest)) = .ok v (';' :: rest) := by
          have hsemicolon := hread (';' :: rest) (.mark (by decide))
          rw [List.cons_append, List.append_assoc] at hsemicolon
          exact hsemicolon
        have hsolid : Solid (';' :: rest) := rfl
        have hbrace : Fails (blockOf inner) (';' :: rest) := Fails.bind ⟨_, rfl⟩
        exact Fails.bind_of_ok hexpr (Fails.bind_of_ok (blanks_of_solid hsolid) hbrace.bind)
      | cons w' ws =>
        refine hrefused _ (Window.solid_text hbuf r) ?_
        refine Fails.bind_of_ok (hv r hends) (Fails.bind_of_ok (blanks_of_solid hends.solid) ?_)
        rw [← hr]
        exact Fails.bind ⟨_, rfl⟩

/-! ## Blocks -/

/-- What is left of a block from the next statement on: `k` blanks stand before its brace. -/
def blockTail (ind k : Nat) : Block → List Char → List Char
  | [], rest => '\x7d' :: rest
  | s :: b, rest => (s.text ind).toList ++
      '\n' :: ((Stmt.lines ind b).toList ++ ((indentation k).toList ++ '\x7d' :: rest))

theorem isCodeBlank_of_mem_indentation {k : Nat} {c : Char} (h : c ∈ (indentation k).toList) :
    isCodeBlank c = true := by
  rw [indentation, String.toList_ofList] at h
  rw [List.eq_of_mem_replicate h]
  decide

/-- The line feed and the blanks before a statement are skipped. -/
theorem blanks_lines {ind k : Nat} {b : Block}
    (hsolid : ∀ s ∈ b, ∀ r, Solid ((s.text ind).toList ++ r)) (rest : List Char) :
    blanks ('\n' :: ((Stmt.lines ind b).toList ++ ((indentation k).toList ++ '\x7d' :: rest))) =
      .ok () (blockTail ind k b rest) := by
  cases b with
  | nil =>
    have hbrace : Solid ('\x7d' :: rest) := rfl
    refine blanks_append (w := '\n' :: (indentation k).toList) ?_ hbrace
    rw [List.forall_mem_cons]
    exact ⟨by decide, fun c => isCodeBlank_of_mem_indentation⟩
  | cons s b =>
    have htext : '\n' :: ((Stmt.lines ind (s :: b)).toList ++
        ((indentation k).toList ++ '\x7d' :: rest)) =
        ('\n' :: (indentation ind).toList) ++ blockTail ind k (s :: b) rest := by
      simp [Stmt.lines, blockTail]
    rw [htext]
    refine blanks_append ?_ (hsolid s (.head _) _)
    rw [List.forall_mem_cons]
    exact ⟨by decide, fun c => isCodeBlank_of_mem_indentation⟩

/-- One turn of the loop that reads a block. -/
def blockStep (inner : Parser Stmt) (acc : Block) : Parser (Option Block) := do
  if ← startsWith "\x7d" then return none
  else
    let s ← inner
    blanks
    return some (s :: acc)

section blocks

variable {inner : Parser Stmt} {ind : Nat} {value : Stmt → Stmt} {b : Block}
  (hread : ∀ s ∈ b, ∀ r, inner ((s.text ind).toList ++ r) = .ok (value s) r)
  (hstart : ∀ s ∈ b, ∃ c cs, (s.text ind).toList = c :: cs ∧ isIdentStart c = true)

theorem solid_of_start
    (hstart : ∀ s ∈ b, ∃ c cs, (s.text ind).toList = c :: cs ∧ isIdentStart c = true) :
    ∀ s ∈ b, ∀ r, Solid ((s.text ind).toList ++ r) := by
  intro s hs r
  obtain ⟨c, cs, htext, hc⟩ := hstart s hs
  rw [htext]
  exact Expr.Opens.solid (.inl hc) _

include hread hstart

/-- The loop reads the statements that are left, one a turn. -/
theorem iterates_block (k : Nat) (rest : List Char) (acc : Block) :
    Iterates (blockStep inner) acc (blockTail ind k b rest)
      (.ok ((b.map value).reverse ++ acc) ('\x7d' :: rest)) := by
  induction b generalizing acc with
  | nil => exact .done rfl
  | cons s b ih =>
    obtain ⟨hs, hb⟩ := List.forall_mem_cons.1 hread
    obtain ⟨⟨c, cs, htext, hc⟩, hstart'⟩ := List.forall_mem_cons.1 hstart
    have hbrace : ∀ r, startsWith "\x7d" ((s.text ind).toList ++ r) =
        .ok false ((s.text ind).toList ++ r) := by
      intro r
      rw [htext]
      exact startsWith_eq_false (c := '\x7d') rfl (forall_head (ne_of_isIdentStart hc (by decide)))
    have hskip := blanks_lines (k := k) (solid_of_start hstart') rest
    have hstep : blockStep inner acc (blockTail ind k (s :: b) rest) =
        .ok (some (value s :: acc)) (blockTail ind k b rest) := by
      rw [blockTail, blockStep, bind_ok (hbrace _)]
      exact (bind_ok (hs _)).trans (bind_ok hskip)
    refine .more hstep ?_ ?_
    · have hlength : (blockTail ind k b rest).length ≤
          ('\n' :: ((Stmt.lines ind b).toList ++
            ((indentation k).toList ++ '\x7d' :: rest))).length := by
        rw [blanks, Parsed.ok.injEq] at hskip
        rw [← hskip.2]
        exact length_skipBlanksFrom false _
      rw [blockTail, List.length_append, htext, List.length_cons]
      omega
    · rw [List.map_cons, List.reverse_cons, List.append_assoc]
      exact ih hb hstart' (value s :: acc)

/-- **A block is read back** if its statements are. -/
theorem blockOf_append (k : Nat) (rest : List Char) :
    blockOf inner ('\x7b' :: '\n' :: ((Stmt.lines ind b).toList ++
      ((indentation k).toList ++ '\x7d' :: rest))) = .ok (b.map value) rest := by
  have hopen : ∀ r, text "\x7b" ('\x7b' :: r) = .ok () r := fun r => rfl
  have hloop : iterate (blockStep inner) [] (blockTail ind k b rest) =
      .ok ((b.map value).reverse ++ []) ('\x7d' :: rest) :=
    (iterates_block hread hstart k rest []).iterate
  have hclose : text "\x7d" ('\x7d' :: rest) = .ok () rest := rfl
  refine (bind_ok (hopen _)).trans ?_
  refine (bind_ok (blanks_lines (solid_of_start hstart) rest)).trans ?_
  refine (bind_ok hloop).trans ((bind_ok hclose).trans ?_)
  show Parsed.ok _ _ = _
  rw [List.append_nil, List.reverse_reverse]

end blocks

/-! ## Loops and guards -/

theorem Stmt.toList_loop (h : Header) (body : Block) (ind : Nat) (rest : List Char) :
    ((Stmt.loop h body).text ind).toList ++ rest =
      "for".toList ++ ' ' :: (h.var.toList ++ ' ' :: ("in".toList ++ ' ' :: (h.mode.name.toList ++
        '(' :: (h.bound.text.toList ++ ')' :: ' ' :: '\x7b' :: '\n' ::
          ((Stmt.lines (ind + 2) body).toList ++
            ((indentation ind).toList ++ '\x7d' :: rest)))))) := by
  simp [Stmt.text]

theorem Stmt.toList_guard (c : Expr) (body : Block) (ind : Nat) (rest : List Char) :
    ((Stmt.guard c body).text ind).toList ++ rest =
      "if".toList ++ ' ' :: (c.text.toList ++ ' ' :: '\x7b' :: '\n' ::
        ((Stmt.lines (ind + 2) body).toList ++ ((indentation ind).toList ++ '\x7d' :: rest))) := by
  simp [Stmt.text]

/-- The mode of a loop, before what is done with it. -/
theorem mode_append {α : Type} (k : Mode → Parser α) (m : Mode) (r : List Char) :
    (hasKeyword "par" >>= fun found =>
      if found then (pure Mode.par >>= k) else ((do keyword "seq"; pure Mode.seq) >>= k))
        (m.name.toList ++ '(' :: r) = k m ('(' :: r) := by
  cases m <;> rfl

section compound

variable {inner : Parser Stmt} {ind : Nat} {value : Stmt → Stmt} {body : Block}
  (hread : ∀ s ∈ body, ∀ r, inner ((s.text (ind + 2)).toList ++ r) = .ok (value s) r)
  (hstart : ∀ s ∈ body, ∃ c cs, (s.text (ind + 2)).toList = c :: cs ∧ isIdentStart c = true)

include hread hstart

theorem loopStmt_append {h : Header} (hvar : isIdent h.var = true) (hbound : h.bound.Spelled)
    (rest : List Char) :
    loopStmt inner (((Stmt.loop h body).text ind).toList ++ rest) =
      .ok (.loop { h with bound := h.bound.asRead } (body.map value)) rest := by
  have hspace : ∀ r, Ends (' ' :: r) := ends_cons (by decide)
  have hmode : ∀ r, Solid (h.mode.name.toList ++ r) := solid_ident (by cases h.mode <;> decide)
  rw [toList_loop]
  refine (bind_ok (keyword_append "for" (hspace _))).trans ?_
  refine (bind_ok (blanks_space (solid_ident hvar _))).trans ?_
  refine (bind_ok (ident_append hvar (hspace _))).trans ?_
  refine (bind_ok (blanks_space (by rfl))).trans ?_
  refine (bind_ok (keyword_append "in" (hspace _))).trans ?_
  refine (bind_ok (blanks_space (hmode _))).trans ?_
  refine (mode_append _ h.mode _).trans ?_
  refine (bind_ok (blanks_of_solid (by rfl))).trans ?_
  refine (bind_ok (enclosed_ok (Expr.solid_text hbound _)
    (expr_append hbound (.mark (by decide))))).trans ?_
  refine (bind_ok (blanks_space (by rfl))).trans ?_
  exact bind_ok (blockOf_append hread hstart ind rest)

theorem guardStmt_append {c : Expr} (hc : c.Spelled) (rest : List Char) :
    guardStmt inner (((Stmt.guard c body).text ind).toList ++ rest) =
      .ok (.guard c.asRead (body.map value)) rest := by
  rw [toList_guard]
  refine (bind_ok (keyword_append "if" (ends_cons (by decide) _))).trans ?_
  refine (bind_ok (blanks_space (Expr.solid_text hc _))).trans ?_
  refine (bind_ok (expr_append hc .block)).trans ?_
  refine (bind_ok (blanks_space (by rfl))).trans ?_
  exact bind_ok (blockOf_append hread hstart ind rest)

end compound

/-! ## Statements -/

namespace Stmt

theorem start_text {s : Stmt} (h : s.SpelledHere) (ind : Nat) :
    ∃ c cs, (s.text ind).toList = c :: cs ∧ isIdentStart c = true := by
  cases s with
  | loop hd body =>
    refine ⟨'f', ?_, ?_, by decide⟩
    rotate_left
    · simp only [text, String.toList_append, List.append_assoc]
      rfl
  | guard c body =>
    refine ⟨'i', ?_, ?_, by decide⟩
    rotate_left
    · simp only [text, String.toList_append, List.append_assoc]
      rfl
  | store u b idx rhs =>
    simp only [text, String.toList_append, List.append_assoc]
    exact cons_ident (h.names b (.head _)) _
  | alloc d =>
    rw [text, String.toList_append, Decl.toList_text]
    exact cons_ident (h.names d.name (.head _)) _
  | call t args =>
    simp only [text, String.toList_append, List.append_assoc]
    exact cons_ident (h.names t (.head _)) _

theorem length_le_lines {s : Stmt} {b : Block} (h : s ∈ b) (ind : Nat) :
    (s.text ind).toList.length ≤ (lines ind b).toList.length := by
  induction b with
  | nil => cases h
  | cons a b ih =>
    simp only [lines, String.toList_append, List.length_append]
    obtain rfl | hs := List.mem_cons.1 h
    · omega
    · have := ih hs
      omega

theorem SpelledHere.of_spelled {s : Stmt} (h : s.Spelled) : s.SpelledHere := by
  refine h s ?_
  cases s <;> simp [nested]

end Stmt

/-- What is neither a loop nor a guard is read as the statement it is. -/
theorem orElse_simple {inner : Parser Stmt} {s rest : List Char} {a : Stmt}
    (hfails : Fails (loopStmt inner) s ∧ Fails (guardStmt inner) s)
    (h : simpleStmt s = .ok a rest) :
    (loopStmt inner).orElse ((guardStmt inner).orElse simpleStmt) s = .ok a rest :=
  (orElse_of_fails hfails.1).trans ((orElse_of_fails hfails.2).trans h)

/-- A mark after a name is no name and no condition. -/
theorem compound_fails {inner : Parser Stmt} {n : String} {s s' : List Char} {c : Char}
    (hn : isIdent n = true) (hs : Ends s) (hblanks : blanks s = .ok () s')
    (hhead : s'.head? = some c) (hc : c ∈ ['[', '=', '+', ':']) :
    Fails (loopStmt inner) (n.toList ++ s) ∧ Fails (guardStmt inner) (n.toList ++ s) := by
  have hmarks : ∀ c ∈ ['[', '=', '+', ':'], isIdentStart c = false ∧ Decimal.isDigit c = false ∧
      c ≠ '-' ∧ c ≠ '(' := forall_mem_of_all (by decide)
  obtain ⟨hstart, hdigit, hminus, hparen⟩ := hmarks c hc
  constructor
  · refine loopStmt_fails hn hs hblanks fun d hd => ?_
    rw [hhead] at hd
    cases hd
    exact hstart
  · refine guardStmt_fails hn hs hblanks fun _ => Fails.bind (expr_fails fun d hd hopens => ?_)
    rw [hhead] at hd
    cases hd
    rcases hopens with h | h | h | h
    · rw [hstart] at h
      cases h
    · rw [hdigit] at h
      cases h
    · exact hminus h
    · exact hparen h

theorem store_append {inner : Parser Stmt} {u : Update} {b : String} {rhs : Expr}
    (h : (Stmt.store u b idx rhs).SpelledHere) (ind : Nat) (rest : List Char) :
    (loopStmt inner).orElse ((guardStmt inner).orElse simpleStmt)
      (((Stmt.store u b idx rhs).text ind).toList ++ rest) =
        .ok (.store u b (idx.map (·.asRead)) rhs.asRead) rest := by
  have hb : isIdent b = true := h.names b (.head _)
  have hsimple : simpleStmt (((Stmt.store u b idx rhs).text ind).toList ++ rest) = _ :=
    simpleStmt_store hb (fun e he => h.exprs e (List.mem_append_left _ he))
      (h.exprs rhs (List.mem_append_right _ (.head _))) ind rest
  obtain ⟨c, cs, hhead, hc⟩ := u.head_symbol (' ' :: (rhs.text.toList ++ ';' :: rest))
  have hmarks : ∀ c ∈ ['=', '+'], isCodeBlank c = false ∧ c ≠ '/' ∧ c ∈ ['[', '=', '+', ':'] :=
    forall_mem_of_all (by decide)
  have hsolid := solid_mark ⟨(hmarks c hc).1, (hmarks c hc).2.1⟩ cs
  rw [toList_store, hhead] at hsimple ⊢
  refine orElse_simple ?_ hsimple
  cases idx with
  | nil =>
    exact compound_fails hb (ends_cons (by decide) _) (blanks_space hsolid) rfl (hmarks c hc).2.2
  | cons e idx =>
    rw [Expr.texts_eq_map, toList_brackets_cons]
    exact compound_fails hb (ends_cons (by decide) _) (blanks_of_solid rfl) rfl (by decide)

theorem alloc_append {inner : Parser Stmt} {d : Decl} (h : (Stmt.alloc d).SpelledHere) (ind : Nat)
    (rest : List Char) :
    (loopStmt inner).orElse ((guardStmt inner).orElse simpleStmt)
      (((Stmt.alloc d).text ind).toList ++ rest) = .ok (.alloc d.asRead) rest := by
  have hname : isIdent d.name = true := h.names _ (.head _)
  have hsimple := simpleStmt_alloc hname h.exprs ind rest
  rw [Stmt.text, String.toList_append, List.append_assoc, Decl.toList_text] at hsimple ⊢
  exact orElse_simple (compound_fails hname (ends_cons (by decide) _) (blanks_of_solid rfl) rfl
    (by decide)) hsimple

theorem call_append {inner : Parser Stmt} {t : String} (h : (Stmt.call t args).SpelledHere)
    (ind : Nat) (rest : List Char) :
    (loopStmt inner).orElse ((guardStmt inner).orElse simpleStmt)
      (((Stmt.call t args).text ind).toList ++ rest) =
        .ok (.call t (args.map (·.mapExprs (·.asRead)))) rest := by
  obtain ⟨ht, hnames⟩ := List.forall_mem_cons.1 h.names
  have hbufs : ∀ w ∈ args, isIdent w.buf = true := fun w hw => hnames _ (List.mem_map_of_mem hw)
  have hexprs : ∀ w ∈ args, ∀ e ∈ w.exprs, e.Spelled := fun w hw e he =>
    h.exprs e (List.mem_flatMap.2 ⟨w, hw, he⟩)
  have hsimple := simpleStmt_call ht hbufs hexprs ind rest
  have hends : ∀ r, Ends ('(' :: r) := ends_cons (by decide)
  rw [toList_call] at hsimple ⊢
  refine orElse_simple ⟨?_, ?_⟩ hsimple
  · exact loopStmt_fails ht (hends _) (blanks_of_solid rfl) (forall_head (by decide))
  · exact guardStmt_fails ht (hends _) (blanks_of_solid rfl) fun _ =>
      guard_call_fails hbufs hexprs rest

/-- A body is read with the smaller bound, since its statements are shorter. -/
theorem body_append {ind : Nat} {s : Stmt} {body : Block}
    (hread : ∀ {s : Stmt}, s.Spelled → ∀ {ind : Nat}, (s.text ind).toList.length < bound.length →
      ∀ rest, stmtUpTo bound ((s.text ind).toList ++ rest) = .ok s.asRead rest)
    (h : s.Spelled) (hbody : s.body? = some body)
    (hlen : (s.text ind).toList.length ≤ bound.length) :
    (∀ a ∈ body, ∀ r, stmtUpTo bound ((a.text (ind + 2)).toList ++ r) = .ok a.asRead r) ∧
      ∀ a ∈ body, ∃ c cs, (a.text (ind + 2)).toList = c :: cs ∧ isIdentStart c = true := by
  have hbrace : "\x7d".toList.length = 1 := rfl
  obtain ⟨hspelled, hlines⟩ :
      body.Spelled ∧ (Stmt.lines (ind + 2) body).toList.length < bound.length := by
    cases s with
    | loop _ _ | guard _ _ =>
      cases hbody
      simp only [Stmt.text, String.toList_append, List.length_append] at hlen
      exact ⟨(List.forall_mem_cons.1 h).2, by omega⟩
    | _ => cases hbody
  have hspelled := Block.spelled_iff.1 hspelled
  constructor
  · intro a ha r
    have hle := Stmt.length_le_lines ha (ind + 2)
    exact hread (hspelled a ha) (by omega) r
  · exact fun a ha => Stmt.start_text (Stmt.SpelledHere.of_spelled (hspelled a ha)) (ind + 2)

theorem stmtUpTo_append (bound : List Char) {s : Stmt} (h : s.Spelled) {ind : Nat}
    (hlen : (s.text ind).toList.length < bound.length) (rest : List Char) :
    stmtUpTo bound ((s.text ind).toList ++ rest) = .ok s.asRead rest := by
  induction bound generalizing s ind rest with
  | nil => cases hlen
  | cons c bound ih =>
    have hhere := Stmt.SpelledHere.of_spelled h
    have hle := Nat.le_of_lt_succ hlen
    cases s with
    | loop hd body =>
      obtain ⟨hread, hstart⟩ := body_append ih h rfl hle
      rw [asRead, map, mapAll_eq_map]
      exact orElse_ok (loopStmt_append hread hstart (hhere.names _ (.head _))
        (hhere.exprs _ (.head _)) rest)
    | guard e body =>
      obtain ⟨hread, hstart⟩ := body_append ih h rfl hle
      have hloop : Fails (loopStmt (stmtUpTo bound))
          (((Stmt.guard e body).text ind).toList ++ rest) := by
        rw [toList_guard]
        exact Fails.bind (keyword_fails_of_ne (by decide) (by decide) (ends_cons (by decide) _)
          (by decide))
      rw [asRead, map, mapAll_eq_map]
      exact (orElse_of_fails hloop).trans (orElse_ok (guardStmt_append hread hstart
        (hhere.exprs _ (.head _)) rest))
    | store u b idx rhs => exact store_append hhere ind rest
    | alloc d => exact alloc_append hhere ind rest
    | call t args => exact call_append hhere ind rest

/-- **The text of a statement is read back**, whatever follows. -/
theorem stmt_append {s : Stmt} (h : s.Spelled) (ind : Nat) (rest : List Char) :
    stmt ((s.text ind).toList ++ rest) = .ok s.asRead rest :=
  stmtUpTo_append _ h (by rw [List.length_cons, List.length_append]; omega) rest

end LoopNest
