import LoopNest.Kernel.Printer
import LoopNest.Proofs.Reading.Literal

/-!
# Operators by strength

Each strength of operator has a parser of its own, which takes operands from the next stronger one.
`Reads` says that a text is read by the parser of a strength, whatever follows that cannot go on
with it (`Follows`). A text that a stronger parser reads is read by all weaker ones
(`Reads.weaken`).

Operators that group to the left are read in a loop. `Chains` says that the loop, once started on a
text, comes to stand behind it with the value of the text as its left operand: that is kept when an
operator and one more operand are added (`Chains.join`), and where no operator follows, the loop is
left (`Chains.reads`).
-/

namespace LoopNest

open Text Text.Parser

/-! ## What follows an operand -/

/-- What stands after an operand of strength `k`: nothing, a closing mark, a block, or an operator
that binds less. -/
inductive Follows (k : Nat) : List Char → Prop
  | nil : Follows k []
  | mark {c : Char} {cs : List Char} : c ∈ [')', ']', ',', ':', ';'] → Follows k (c :: cs)
  | block {cs : List Char} : Follows k (' ' :: '\x7b' :: cs)
  | op {o : Op} {s : List Char} :
    o.precedence < k → Follows k (' ' :: (o.symbol.toList ++ ' ' :: s))

theorem Op.mem_all (o : Op) : o ∈ Op.all := by
  cases o <;> decide

theorem Op.precedence_mem (o : Op) : 1 ≤ o.precedence ∧ o.precedence ≤ 4 := by
  cases o <;> decide

namespace Follows

variable {k : Nat} {rest : List Char}

theorem mono {k' : Nat} (hle : k ≤ k') (h : Follows k rest) : Follows k' rest := by
  cases h with
  | nil => exact .nil
  | mark hc => exact .mark hc
  | block => exact .block
  | op ho => exact .op (Nat.lt_of_lt_of_le ho hle)

theorem ends (h : Follows k rest) : Ends rest := by
  have hmarks : ∀ c ∈ [')', ']', ',', ':', ';'], isIdentRest c = false :=
    forall_mem_of_all (by decide)
  cases h with
  | nil => exact ends_nil
  | mark hc => exact ends_cons (hmarks _ hc) _
  | block | op ho => exact ends_cons (by decide) _

theorem head_ne_point (h : Follows k rest) : rest.head? ≠ some '.' := by
  cases h with
  | nil => simp
  | mark hc =>
    rintro ⟨⟩
    exact absurd hc (by decide)
  | block | op ho => simp

/-- Behind the blanks stands neither a bracket nor an operator that binds as much. -/
theorem behind_blanks (h : Follows k rest) : ∃ s, blanks rest = .ok () s ∧ Solid s ∧
    ∀ c ∈ s.head?, c ≠ '[' ∧ ∀ o : Op, k ≤ o.precedence → o.symbol.toList.head? ≠ some c := by
  cases h with
  | nil => exact ⟨[], rfl, solid_nil, by simp⟩
  | @mark c cs hc =>
    have hmarks : ∀ c ∈ [')', ']', ',', ':', ';'], (isCodeBlank c = false ∧ c ≠ '/') ∧ c ≠ '[' ∧
        ∀ o ∈ Op.all, o.symbol.toList.head? ≠ some c := forall_mem_of_all (by decide)
    obtain ⟨hplain, hbracket, hops⟩ := hmarks c hc
    have hsolid := solid_mark hplain cs
    exact ⟨c :: cs, blanks_of_solid hsolid, hsolid,
      forall_head ⟨hbracket, fun o _ => hops o o.mem_all⟩⟩
  | @block cs =>
    have hops : ∀ o ∈ Op.all, o.symbol.toList.head? ≠ some '\x7b' := by decide
    exact ⟨'\x7b' :: cs, rfl, rfl, forall_head ⟨by decide, fun o _ => hops o o.mem_all⟩⟩
  | @op o s ho =>
    have hheads : ∀ o ∈ Op.all, ∀ c ∈ o.symbol.toList.head?, c ≠ '[' ∧
        ∀ o' ∈ Op.all, o.precedence < o'.precedence → o'.symbol.toList.head? ≠ some c := by
      intro o _ c hc
      cases o <;> cases hc <;> decide
    have hsolid : Solid (o.symbol.toList ++ ' ' :: s) := by
      cases o <;> rfl
    refine ⟨_, blanks_space hsolid, hsolid, fun c hc => ?_⟩
    have hhead : c ∈ o.symbol.toList.head? := by
      cases o <;> exact hc
    obtain ⟨hbracket, hops⟩ := hheads o o.mem_all c hhead
    exact ⟨hbracket, fun o' ho' => hops o' o'.mem_all (Nat.lt_of_lt_of_le ho ho')⟩

end Follows

/-! ## Operators -/

/-- The parser of the operators of a strength. -/
def levelOp : Nat → Parser Op
  | 1 => conjunctionOp
  | 2 => operator [.le, .ge, .eq, .lt, .gt]
  | 3 => additiveOp
  | _ => operator [.mul, .div, .mod]

theorem levelOp_append (o : Op) {s : List Char} (hs : Solid s) :
    levelOp o.precedence (' ' :: (o.symbol.toList ++ ' ' :: s)) = .ok o s := by
  have hrun : levelOp o.precedence (' ' :: (o.symbol.toList ++ ' ' :: s)) =
      (do blanks; return o : Parser Op) (' ' :: s) := by
    cases o <;> rfl
  rw [hrun, bind_ok (blanks_space hs)]
  rfl

theorem operator_first_fails {ops : List Op} {s : List Char}
    (h : ∀ c ∈ s.head?, ∀ o ∈ ops, o.symbol.toList.head? ≠ some c) :
    Fails (operator.first ops) s := by
  induction ops with
  | nil => exact ⟨s, rfl⟩
  | cons o ops ih =>
    have hsymbol : ∃ d, o.symbol.toList.head? = some d := by
      cases o <;> exact ⟨_, rfl⟩
    obtain ⟨d, hd⟩ := hsymbol
    have htext : Fails (text o.symbol) s :=
      text_fails hd fun c hc heq => h c hc o (.head _) (heq ▸ hd)
    exact htext.bind.orElse (ih fun c hc o' ho' => h c hc o' (List.mem_cons_of_mem o ho'))

/-- Where an operand of strength `k` ends, no operator of that strength follows. -/
theorem levelOp_fails {k : Nat} {rest : List Char} (hk : 1 ≤ k) (hk' : k ≤ 4)
    (h : Follows k rest) : Fails (levelOp k) rest := by
  obtain ⟨s, hblanks, hsolid, hs⟩ := h.behind_blanks
  have hoperator : ∀ ops : List Op, (∀ o ∈ ops, k ≤ o.precedence) → ∀ r,
      blanks r = .ok () s → Fails (operator ops) r := by
    intro ops hops r hr
    refine Fails.bind_of_ok hr (Fails.bind ?_)
    exact operator_first_fails fun c hc o ho => (hs c hc).2 o (hops o ho)
  match k, hk, hk' with
  | 1, _, _ =>
    refine Fails.bind_of_ok hblanks (Fails.bind (keyword_fails fun r hr _ => ?_))
    subst hr
    exact (hs 'a' rfl).2 .and (by decide) rfl
  | 2, _, _ => exact hoperator _ (by decide) rest hblanks
  | 3, _, _ =>
    have hplus : startsWith "+=" s = .ok false s :=
      startsWith_eq_false (c := '+') rfl fun c hc heq => (hs c hc).2 .add (by decide) (heq ▸ rfl)
    refine Fails.bind_of_ok hblanks (Fails.bind_of_ok hplus ?_)
    exact hoperator _ (by decide) s (blanks_of_solid hsolid)
  | 4, _, _ => exact hoperator _ (by decide) rest hblanks

/-! ## Strengths -/

/-- The parser of the expressions of at least a strength. -/
def level (inner : Parser Expr) : Nat → Parser Expr
  | 1 => conjunction inner
  | 2 => comparison inner
  | 3 => additive inner
  | 4 => multiplicative inner
  | 5 => unary inner
  | _ => atom inner

variable {inner : Parser Expr} {k : Nat} {t t' : List Char} {v v' : Expr}

/-- The parser of strength `k` reads the text as `v`. -/
def Reads (inner : Parser Expr) (k : Nat) (t : List Char) (v : Expr) : Prop :=
  ∀ rest, Follows k rest → level inner k (t ++ rest) = .ok v rest

/-- One turn of the loop that joins operands to the left one. -/
def joinStep (p : Parser Expr) (op : Parser Op) (left : Expr) : Parser (Option Expr) := do
  match ← optional op with
  | none => return none
  | some op => return some (.binary op left (← p))

/-- The strengths of operators that group to the left. -/
def GroupsLeft (k : Nat) : Prop := k = 1 ∨ k = 3 ∨ k = 4

theorem level_groupsLeft (hk : GroupsLeft k) : level inner k =
    (do iterate (joinStep (level inner (k + 1)) (levelOp k)) (← level inner (k + 1))) := by
  obtain rfl | rfl | rfl := hk <;> rfl

theorem GroupsLeft.le (hk : GroupsLeft k) : 1 ≤ k ∧ k ≤ 4 := by
  obtain rfl | rfl | rfl := hk <;> decide

/-- The loop of strength `k` comes to stand behind the text, with `v` as its left operand. -/
def Chains (inner : Parser Expr) (k : Nat) (t : List Char) (v : Expr) : Prop :=
  ∀ rest, Follows (k + 1) rest → ∃ first s, level inner (k + 1) (t ++ rest) = .ok first s ∧
    ∀ r, Iterates (joinStep (level inner (k + 1)) (levelOp k)) v rest r →
      Iterates (joinStep (level inner (k + 1)) (levelOp k)) first s r

theorem Reads.chains (h : Reads inner (k + 1) t v) : Chains inner k t v :=
  fun rest hrest => ⟨v, rest, h rest hrest, fun _ hr => hr⟩

/-- One more operand. -/
theorem Chains.join {o : Op} (h : Chains inner o.precedence t v)
    (h' : Reads inner (o.precedence + 1) t' v') (hsolid : ∀ rest, Solid (t' ++ rest)) :
    Chains inner o.precedence (t ++ ' ' :: (o.symbol.toList ++ ' ' :: t')) (.binary o v v') := by
  intro rest hrest
  have hstep : joinStep (level inner (o.precedence + 1)) (levelOp o.precedence) v
      (' ' :: (o.symbol.toList ++ ' ' :: (t' ++ rest))) = .ok (some (.binary o v v')) rest := by
    rw [joinStep, bind_ok (optional_ok (levelOp_append o (hsolid rest)))]
    exact bind_ok (h' rest hrest)
  obtain ⟨first, s, hfirst, hloop⟩ := h (' ' :: (o.symbol.toList ++ ' ' :: (t' ++ rest)))
    (.op (Nat.lt_succ_self _))
  refine ⟨first, s, ?_, fun r hr => hloop r (.more hstep ?_ hr)⟩
  · rw [← hfirst]
    simp
  · simp only [List.length_cons, List.length_append]
    omega

/-- Where no operator follows, the loop is left. -/
theorem Chains.reads (hk : GroupsLeft k) (h : Chains inner k t v) : Reads inner k t v := by
  intro rest hrest
  obtain ⟨first, s, hfirst, hloop⟩ := h rest (hrest.mono (Nat.le_succ k))
  have hdone : joinStep (level inner (k + 1)) (levelOp k) v rest = .ok none rest :=
    bind_ok (optional_of_fails (levelOp_fails hk.le.1 hk.le.2 hrest))
  rw [level_groupsLeft hk, bind_ok hfirst]
  exact (hloop _ (.done hdone)).iterate

/-- A comparison of two operands. -/
theorem Reads.compare {o : Op} (ho : o.isComparison = true) (h : Reads inner 3 t v)
    (h' : Reads inner 3 t' v') (hsolid : ∀ rest, Solid (t' ++ rest)) :
    Reads inner 2 (t ++ ' ' :: (o.symbol.toList ++ ' ' :: t')) (.binary o v v') := by
  intro rest hrest
  have hprec : o.precedence = 2 := by simpa [Op.isComparison] using ho
  have hop := levelOp_append o (hsolid rest)
  rw [hprec] at hop
  have hleft := h (' ' :: (o.symbol.toList ++ ' ' :: (t' ++ rest))) (.op (by omega))
  rw [List.append_assoc, List.cons_append, List.append_assoc, List.cons_append]
  refine (bind_ok hleft).trans ((bind_ok (optional_ok hop)).trans ?_)
  exact bind_ok (h' rest (hrest.mono (by decide)))

section atoms

variable {s rest : List Char}

theorem number_fails (h : ∀ c ∈ s.head?, Decimal.isDigit c = false) : Fails number s :=
  (takeWhile1_fails h).bind

theorem enclosed_fails (h : ∀ c ∈ s.head?, c ≠ '(') : Fails (enclosed "(" inner ")") s :=
  (text_fails (c := '(') rfl h).bind

/-- Where neither a digit nor a parenthesis nor a name starts, there is no atom. -/
theorem atom_fails (hdigit : ∀ c ∈ s.head?, Decimal.isDigit c = false)
    (hparen : ∀ c ∈ s.head?, c ≠ '(') (hstart : ∀ c ∈ s.head?, isIdentStart c = false) :
    Fails (atom inner) s :=
  (number_fails hdigit).orElse ((enclosed_fails hparen).orElse (ident_fails hstart).bind)

theorem unary_of_atom (h : atom inner s = .ok v rest) : unary inner s = .ok v rest := by
  have hsign : Fails (text "-") s := by
    refine text_fails (c := '-') rfl fun c hc heq => ?_
    obtain ⟨s', rfl⟩ := List.head?_eq_some_iff.1 (heq ▸ hc)
    obtain ⟨r, hr⟩ : Fails (atom inner) ('-' :: s') :=
      atom_fails (forall_head (by decide)) (forall_head (by decide)) (forall_head (by decide))
    exact absurd (h.symm.trans hr) (by simp)
  show unaryUpTo inner (' ' :: s) s = _
  rw [unaryUpTo, bind_ok (optional_of_fails hsign)]
  exact h

end atoms

/-- What is read at a strength is read at the strength below. -/
theorem Reads.lower (hk : 1 ≤ k) (h : Reads inner (k + 1) t v) : Reads inner k t v := by
  by_cases hleft : GroupsLeft k
  · exact h.chains.reads hleft
  · intro rest hrest
    have hread := h rest (hrest.mono (Nat.le_succ k))
    by_cases htwo : k = 2
    · subst htwo
      have hnone := levelOp_fails (by decide) (by decide) hrest
      exact (bind_ok hread).trans (bind_ok (optional_of_fails hnone))
    · by_cases hfive : k = 5
      · subst hfive
        exact unary_of_atom hread
      · have hlarge : 6 ≤ k := by
          simp only [GroupsLeft, not_or] at hleft
          omega
        obtain ⟨j, rfl⟩ := Nat.exists_eq_add_of_le hlarge
        rw [show 6 + j = j + 6 by omega]
        rw [show 6 + j + 1 = j + 1 + 6 by omega] at hread
        exact hread

theorem Reads.weaken {k' : Nat} (hk : 1 ≤ k) (hle : k ≤ k') (h : Reads inner k' t v) :
    Reads inner k t v := by
  induction hle with
  | refl => exact h
  | step hle ih => exact ih (h.lower (Nat.le_trans hk hle))

end LoopNest
