import LoopNest.Proofs.Reading.Expr

/-!
# Declarations, windows and simple statements are read back

`Stmt.Spelled` says what it takes for a statement to have a text that is read. Declarations,
parameters and windows are read up to the mark that ends them, and allocations, calls and stores up
to their semicolon, whatever follows.
-/

namespace LoopNest

open Text Text.Parser

/-! ## Names and expressions that can be spelled -/

namespace Stmt

/-- The names that stand in this very statement, outside its expressions. -/
def ownNames : Stmt → List String
  | loop h _ => [h.var]
  | guard _ _ => []
  | store _ b _ _ => [b]
  | alloc d => [d.name]
  | call t args => t :: args.map (·.buf)

/-- Everything in this very statement can be spelled. -/
structure SpelledHere (s : Stmt) : Prop where
  names : ∀ n ∈ s.ownNames, isIdent n = true
  exprs : ∀ e ∈ s.exprs, e.Spelled

/-- Everything in the statement and those nested in it can be spelled. -/
def Spelled (s : Stmt) : Prop := ∀ a ∈ s.nested, a.SpelledHere

/-- What the text of the statement is read as, before names are resolved. -/
def asRead : Stmt → Stmt := map (·.mapExprs (·.asRead))

end Stmt

/-- Everything in the block can be spelled. -/
def Block.Spelled (b : Block) : Prop := ∀ s ∈ b.nested, s.SpelledHere

theorem Block.forall_nested {P : Stmt → Prop} {b : Block} :
    (∀ a ∈ b.nested, P a) ↔ ∀ s ∈ b, ∀ a ∈ s.nested, P a := by
  induction b with
  | nil => simp [Block.nested, Stmt.nestedAll]
  | cons s b ih =>
    rw [List.forall_mem_cons, ← ih]
    exact List.forall_mem_append

theorem Block.spelled_iff {b : Block} : b.Spelled ↔ ∀ s ∈ b, s.Spelled := Block.forall_nested

theorem Stmt.mapAll_eq_map (f : Stmt → Stmt) (b : Block) : Stmt.mapAll f b = b.map (·.map f) := by
  induction b with
  | nil => rfl
  | cons s b ih => rw [Stmt.mapAll, ih, List.map_cons]

/-! ## Declarations -/

def Decl.asRead (d : Decl) : Decl := { d with shape := d.shape.map (·.asRead) }

def Param.asRead : Param → Param
  | .size n => .size n
  | .buffer d => .buffer d.asRead

theorem scalar_append (ty : Scalar) {rest : List Char} (hrest : Ends rest) :
    scalar (ty.name.toList ++ rest) = .ok ty rest := by
  have hident : isIdent ty.name = true := by cases ty <;> decide
  rw [scalar, bind_ok (ident_append hident hrest), Scalar.ofName?_name]
  rfl

theorem space_append (mem : Space) {rest : List Char} (hrest : Ends rest) :
    space (mem.name.toList ++ rest) = .ok mem rest := by
  have hident : isIdent mem.name = true := by cases mem <;> decide
  rw [space, bind_ok (ident_append hident hrest), Space.ofName?_name]
  rfl

/-- Expressions in brackets. -/
theorem indices_exprs {idx : List Expr} (h : ∀ e ∈ idx, e.Spelled) {rest : List Char}
    (hrest : Fails (do blanks; text "[" : Parser Unit) rest) :
    indices expr ((brackets (Expr.texts idx)).toList ++ rest) = .ok (idx.map (·.asRead)) rest := by
  rw [Expr.texts_eq_map]
  exact indices_brackets idx (fun e he r hr => expr_append (h e he) (hr.follows 1))
    (fun e he => Expr.solid_text (h e he)) hrest

/-- What follows a name before indices in brackets. -/
theorem ends_brackets (items : List String) {rest : List Char} (hrest : Ends rest) :
    Ends ((brackets items).toList ++ rest) := by
  cases items with
  | nil => exact hrest
  | cons i items =>
    have hopen : (brackets ((i :: items).map id)).toList ++ rest =
        '[' :: ((commas ((i :: items).map id)).toList ++ ']' :: rest) :=
      toList_brackets_cons i items rest
    rw [List.map_id] at hopen
    rw [hopen]
    exact ends_cons (by decide) _

/-- The type, the shape and the space of a declaration. -/
theorem declOf_append {d : Decl} (h : ∀ e ∈ d.shape, e.Spelled) {rest : List Char}
    (hrest : Ends rest) :
    declOf d.name (d.ty.name.toList ++ ((brackets (Expr.texts d.shape)).toList ++
      ' ' :: '@' :: ' ' :: (d.mem.name.toList ++ rest))) = .ok d.asRead rest := by
  have hends : Ends ((brackets (Expr.texts d.shape)).toList ++
      ' ' :: '@' :: ' ' :: (d.mem.name.toList ++ rest)) :=
    ends_brackets _ (ends_cons (by decide) _)
  have hat : (do blanks; text "@" : Parser Unit)
      (' ' :: '@' :: ' ' :: (d.mem.name.toList ++ rest)) =
        .ok () (' ' :: (d.mem.name.toList ++ rest)) := rfl
  have hbracket : Fails (do blanks; text "[" : Parser Unit)
      (' ' :: '@' :: ' ' :: (d.mem.name.toList ++ rest)) := ⟨_, rfl⟩
  have hmem : isIdent d.mem.name = true := by cases d.mem <;> decide
  rw [declOf, bind_ok (scalar_append d.ty hends), bind_ok (indices_exprs h hbracket),
    bind_ok (optional_ok hat)]
  refine (bind_ok ?_).trans rfl
  exact (bind_ok (blanks_space (solid_ident hmem rest))).trans (space_append d.mem hrest)

theorem Decl.toList_text (d : Decl) (rest : List Char) : d.text.toList ++ rest =
    d.name.toList ++ ':' :: ' ' :: (d.ty.name.toList ++ ((brackets (Expr.texts d.shape)).toList ++
      ' ' :: '@' :: ' ' :: (d.mem.name.toList ++ rest))) := by
  simp [Decl.text]

/-- Everything in the parameter can be spelled. -/
structure Param.Spelled (p : Param) : Prop where
  name : isIdent p.name = true
  shape : ∀ d, p.decl? = some d → ∀ e ∈ d.shape, e.Spelled

theorem param_append {p : Param} (h : p.Spelled) {rest : List Char} (hrest : EndsItem rest) :
    param (p.text.toList ++ rest) = .ok p.asRead rest := by
  have hends : ∀ r, Ends (':' :: r) := ends_cons (by decide)
  have hcolon : ∀ r, Solid (':' :: r) := fun r => rfl
  have hread : ∀ r, text ":" (':' :: r) = .ok () r := fun r => rfl
  cases p with
  | size n =>
    have hname : isIdent n = true := h.name
    have htext : (Param.size n).text.toList ++ rest =
        n.toList ++ ':' :: ' ' :: ("size".toList ++ rest) := by simp [Param.text]
    have hword : Solid ("size".toList ++ rest) := rfl
    have hsize : hasKeyword "size" ("size".toList ++ rest) = .ok true rest :=
      bind_ok (optional_ok (keyword_append "size" hrest.ends))
    rw [htext, param, bind_ok (ident_append hname (hends _)), bind_ok (blanks_of_solid (hcolon _)),
      bind_ok (hread _), bind_ok (blanks_space hword), bind_ok hsize]
    rfl
  | buffer d =>
    have hsize : ∀ r, hasKeyword "size" (d.ty.name.toList ++ r) =
        .ok false (d.ty.name.toList ++ r) := by
      intro r
      refine bind_ok (optional_of_fails ?_)
      cases d.ty <;> exact ⟨_, rfl⟩
    have hname : isIdent d.name = true := h.name
    have htype : ∀ r, Solid (d.ty.name.toList ++ r) :=
      solid_ident (by cases d.ty <;> decide)
    rw [Param.text, Decl.toList_text, param,
      bind_ok (ident_append hname (hends _)), bind_ok (blanks_of_solid (hcolon _)),
      bind_ok (hread _), bind_ok (blanks_space (htype _)), bind_ok (hsize _)]
    exact bind_ok (declOf_append (h.shape d rfl) hrest.ends)

theorem Param.solid_text {p : Param} (h : p.Spelled) (rest : List Char) :
    Solid (p.text.toList ++ rest) := by
  cases p with
  | size n =>
    rw [Param.text, String.toList_append, List.append_assoc]
    exact solid_ident h.name _
  | buffer d =>
    rw [Param.text, Decl.toList_text]
    exact solid_ident h.name _

/-! ## Windows -/

theorem windowDim_append {d : WindowDim} (h : ∀ e ∈ d.exprs, e.Spelled) {rest : List Char}
    (hrest : EndsItem rest) :
    windowDim (d.text.toList ++ rest) = .ok (d.mapExprs (·.asRead)) rest := by
  cases d with
  | point e =>
    have hcolon : Fails (do blanks; text ":" : Parser Unit) rest :=
      Fails.bind_of_ok (blanks_of_solid hrest.solid)
        (text_fails (c := ':') rfl (hrest.head (forall_mem_of_all (by decide))))
    rw [WindowDim.text, windowDim,
      bind_ok (expr_append (h e (.head _)) (hrest.follows 1)),
      bind_ok (optional_of_fails hcolon)]
    rfl
  | interval lo hi =>
    obtain ⟨hlo, hhi⟩ : lo.Spelled ∧ hi.Spelled := by simpa [WindowDim.exprs] using h
    have htext : (WindowDim.interval lo hi).text.toList ++ rest =
        lo.text.toList ++ ':' :: (hi.text.toList ++ rest) := by simp [WindowDim.text]
    have hcolon : (do blanks; text ":" : Parser Unit) (':' :: (hi.text.toList ++ rest)) =
        .ok () (hi.text.toList ++ rest) := rfl
    rw [htext, windowDim, bind_ok (expr_append hlo (.mark (by decide))),
      bind_ok (optional_ok hcolon)]
    refine (bind_ok (blanks_of_solid (Expr.solid_text hhi rest))).trans ?_
    exact bind_ok (expr_append hhi (hrest.follows 1))

theorem WindowDim.solid_text {d : WindowDim} (h : ∀ e ∈ d.exprs, e.Spelled) (rest : List Char) :
    Solid (d.text.toList ++ rest) := by
  cases d with
  | point e => exact Expr.solid_text (h e (.head _)) rest
  | interval lo hi =>
    rw [WindowDim.text, String.toList_append, String.toList_append, List.append_assoc,
      List.append_assoc]
    exact Expr.solid_text (h lo (.head _)) _

theorem EndsItem.bracket_fails {s : List Char} (h : EndsItem s) :
    Fails (do blanks; text "[" : Parser Unit) s := (h.follows 1).bracket_fails

theorem window_append {w : Window} (hbuf : isIdent w.buf = true) (h : ∀ e ∈ w.exprs, e.Spelled)
    {rest : List Char} (hrest : EndsItem rest) :
    window (w.text.toList ++ rest) = .ok (w.mapExprs (·.asRead)) rest := by
  have hdims : ∀ d ∈ w.dims, ∀ e ∈ d.exprs, e.Spelled := fun d hd e he =>
    h e (List.mem_flatMap.2 ⟨d, hd, he⟩)
  have hindices := indices_brackets w.dims (fun d hd r hr => windowDim_append (hdims d hd) hr)
    (fun d hd => WindowDim.solid_text (hdims d hd)) hrest.bracket_fails
  rw [Window.text, String.toList_append, List.append_assoc, window,
    bind_ok (ident_append hbuf (ends_brackets _ hrest.ends)), bind_ok hindices]
  rfl

theorem Window.solid_text {w : Window} (hbuf : isIdent w.buf = true) (rest : List Char) :
    Solid (w.text.toList ++ rest) := by
  rw [Window.text, String.toList_append, List.append_assoc]
  exact solid_ident hbuf _

/-! ## Allocations, calls and stores -/

theorem simpleStmt_ok {n : String} (hn : isIdent n = true) {s s' rest : List Char} {a : Stmt}
    (hends : Ends s) (hblanks : blanks s = .ok () s')
    (h : simpleRest n s' = .ok a (';' :: rest)) : simpleStmt (n.toList ++ s) = .ok a rest := by
  have hsemicolon : Solid (';' :: rest) := rfl
  rw [simpleStmt, bind_ok (ident_append hn hends), bind_ok hblanks, bind_ok h,
    bind_ok (blanks_of_solid hsemicolon)]
  rfl

theorem simpleStmt_alloc {d : Decl} (hname : isIdent d.name = true)
    (h : ∀ e ∈ d.shape, e.Spelled) (ind : Nat) (rest : List Char) :
    simpleStmt (((Stmt.alloc d).text ind).toList ++ rest) = .ok (.alloc d.asRead) rest := by
  have hcolon : ∀ r, optional (text ":") (':' :: r) = .ok (some ()) r := fun r => rfl
  have hsolid : ∀ r, Solid (':' :: r) := fun r => rfl
  have htype : ∀ r, Solid (d.ty.name.toList ++ r) := solid_ident (by cases d.ty <;> decide)
  rw [Stmt.text, String.toList_append, List.append_assoc, Decl.toList_text]
  refine simpleStmt_ok hname (ends_cons (by decide) _) (blanks_of_solid (hsolid _)) ?_
  rw [simpleRest, bind_ok (hcolon _)]
  refine (bind_ok (blanks_space (htype _))).trans ?_
  exact bind_ok (declOf_append h (ends_cons (by decide) rest))

/-- Items between parentheses. -/
theorem enclosed_commas {α ι : Type} {p : Parser α} {write : ι → String} {value : ι → α}
    (items : List ι)
    (hitem : ∀ i ∈ items, ∀ r, EndsItem r → p ((write i).toList ++ r) = .ok (value i) r)
    (hsolid : ∀ i ∈ items, ∀ r, Solid ((write i).toList ++ r))
    (hnone : ∀ r, Fails p (')' :: r)) (rest : List Char) :
    enclosed "(" (separated (spaced p) (text ",")) ")"
      ('(' :: ((commas (items.map write)).toList ++ ')' :: rest)) = .ok (items.map value) rest := by
  have hclose : Solid (')' :: rest) := rfl
  have hfirst : Solid ((commas (items.map write)).toList ++ ')' :: rest) := by
    cases items with
    | nil => exact hclose
    | cons i items =>
      rw [toList_commas, List.map_cons, intercalate_cons, List.append_assoc]
      exact hsolid i (.head _) _
  have hlast : Fails (spaced p) (')' :: rest) :=
    Fails.bind_of_ok (blanks_of_solid hclose) (hnone rest).bind
  have hcomma : Fails (text ",") (')' :: rest) := ⟨_, rfl⟩
  exact enclosed_ok hfirst
    (separated_commas items hitem hsolid ⟨')', rest, rfl, by decide⟩ hlast hcomma)

theorem Stmt.toList_call (t : String) (args : List Window) (ind : Nat) (rest : List Char) :
    ((Stmt.call t args).text ind).toList ++ rest =
      t.toList ++ '(' :: ((commas (args.map (·.text))).toList ++ ')' :: ';' :: rest) := by
  simp [Stmt.text]

theorem simpleStmt_call {t : String} {args : List Window} (ht : isIdent t = true)
    (hbufs : ∀ w ∈ args, isIdent w.buf = true) (h : ∀ w ∈ args, ∀ e ∈ w.exprs, e.Spelled)
    (ind : Nat) (rest : List Char) :
    simpleStmt (((Stmt.call t args).text ind).toList ++ rest) =
      .ok (.call t (args.map (·.mapExprs (·.asRead)))) rest := by
  have hsolid : ∀ r, Solid ('(' :: r) := fun r => rfl
  have hcolon : ∀ r, optional (text ":") ('(' :: r) = .ok none ('(' :: r) := fun r => rfl
  have hopen : ∀ r, startsWith "(" ('(' :: r) = .ok true ('(' :: r) := fun r => rfl
  have hnone : ∀ r, Fails window (')' :: r) := fun r => (ident_fails (forall_head (by decide))).bind
  have hargs := enclosed_commas args (fun w hw r hr => window_append (hbufs w hw) (h w hw) hr)
    (fun w hw => Window.solid_text (hbufs w hw)) hnone (';' :: rest)
  rw [Stmt.toList_call]
  refine simpleStmt_ok ht (ends_cons (by decide) _) (blanks_of_solid (hsolid _)) ?_
  rw [simpleRest, bind_ok (hcolon _)]
  refine (bind_ok (hopen _)).trans ?_
  exact bind_ok hargs

theorem Stmt.toList_store (u : Update) (b : String) (idx : List Expr) (rhs : Expr) (ind : Nat)
    (rest : List Char) : ((Stmt.store u b idx rhs).text ind).toList ++ rest =
      b.toList ++ ((brackets (Expr.texts idx)).toList ++
        ' ' :: (u.symbol.toList ++ ' ' :: (rhs.text.toList ++ ';' :: rest))) := by
  simp [Stmt.text]

theorem Update.head_symbol (u : Update) (s : List Char) :
    ∃ c cs, u.symbol.toList ++ s = c :: cs ∧ c ∈ ['=', '+'] := by
  cases u <;> exact ⟨_, _, rfl, by decide⟩

theorem update_append (u : Update) (s : List Char) :
    update (u.symbol.toList ++ ' ' :: s) = .ok u (' ' :: s) := by
  cases u <;> rfl

theorem simpleStmt_store {u : Update} {b : String} {idx : List Expr} {rhs : Expr}
    (hb : isIdent b = true) (hidx : ∀ e ∈ idx, e.Spelled) (hrhs : rhs.Spelled) (ind : Nat)
    (rest : List Char) :
    simpleStmt (((Stmt.store u b idx rhs).text ind).toList ++ rest) =
      .ok (.store u b (idx.map (·.asRead)) rhs.asRead) rest := by
  have hhead := u.head_symbol (' ' :: (rhs.text.toList ++ ';' :: rest))
  have hupdate := update_append u (rhs.text.toList ++ ';' :: rest)
  rw [Stmt.toList_store]
  generalize u.symbol.toList ++ ' ' :: (rhs.text.toList ++ ';' :: rest) = tail at hhead hupdate
  have hmarks : ∀ c ∈ ['=', '+'], (isCodeBlank c = false ∧ c ≠ '/') ∧ c ≠ '[' ∧ c ≠ ':' ∧
      c ≠ '(' := forall_mem_of_all (by decide)
  have hsolid : Solid tail := by
    obtain ⟨c, cs, rfl, hc⟩ := hhead
    exact solid_mark (hmarks c hc).1 cs
  have hbracket : Fails (text "[") tail := by
    obtain ⟨c, cs, rfl, hc⟩ := hhead
    exact text_fails (c := '[') rfl (forall_head (hmarks c hc).2.1)
  -- no branch of a statement but the store takes what follows the name
  have hrest : ∀ s r, Fails (text ":") s → startsWith "(" s = .ok false s →
      indices expr s = .ok (idx.map (·.asRead)) r → blanks r = .ok () tail →
      simpleRest b s = .ok (.store u b (idx.map (·.asRead)) rhs.asRead) (';' :: rest) := by
    intro s r hcolon hopen hindices hblanks
    rw [simpleRest, bind_ok (optional_of_fails hcolon)]
    refine (bind_ok hopen).trans ((bind_ok hindices).trans ((bind_ok hblanks).trans ?_))
    refine (bind_ok hupdate).trans ((bind_ok (blanks_space (Expr.solid_text hrhs _))).trans ?_)
    exact bind_ok (expr_append hrhs (.mark (by decide)))
  cases idx with
  | nil =>
    have hcolon : Fails (text ":") tail := by
      obtain ⟨c, cs, rfl, hc⟩ := hhead
      exact text_fails (c := ':') rfl (forall_head (hmarks c hc).2.2.1)
    have hopen : startsWith "(" tail = .ok false tail := by
      obtain ⟨c, cs, rfl, hc⟩ := hhead
      exact startsWith_eq_false (c := '(') rfl (forall_head (hmarks c hc).2.2.2)
    have hindices : indices expr tail = .ok [] tail :=
      bind_ok (optional_of_fails (Fails.bind_of_ok (blanks_of_solid hsolid) hbracket))
    exact simpleStmt_ok hb (ends_cons (by decide) _) (blanks_space hsolid)
      (hrest tail tail hcolon hopen hindices (blanks_of_solid hsolid))
  | cons e idx =>
    have hindices : indices expr ((brackets (Expr.texts (e :: idx))).toList ++ ' ' :: tail) =
        .ok ((e :: idx).map (·.asRead)) (' ' :: tail) :=
      indices_exprs hidx (Fails.bind_of_ok (blanks_space hsolid) hbracket)
    have hends : Ends ((brackets (Expr.texts (e :: idx))).toList ++ ' ' :: tail) :=
      ends_brackets _ (ends_cons (by decide) tail)
    rw [Expr.texts_eq_map, toList_brackets_cons] at hindices hends ⊢
    exact simpleStmt_ok hb hends (blanks_of_solid rfl)
      (hrest _ _ ⟨_, rfl⟩ rfl hindices (blanks_space hsolid))

end LoopNest
