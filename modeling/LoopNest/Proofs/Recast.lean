import LoopNest.Kernel.Proc
import LoopNest.Proofs.Fresh

/-!
# Blocks that differ from a statement on

A change of a kernel in one place leaves all blocks around that place as they are: from some statement
on, a block in it becomes another one (`Block.Recast`). Every statement of a block can be changed in
this way together with what follows it (`Block.recast_of_get?`). Putting other statements in the
place of one, or of some in a row, is a special case.
-/

namespace LoopNest

namespace Block

/-! ## Statements from a path on -/

/-- The statements of a block from a path on, to the end of the block that holds them. -/
def from? : Path → Block → Option Block
  | [], _ => none
  | [i], b => some (b.drop i)
  | i :: rest, b => ((b[i]?).bind (·.body?)).bind (from? rest)

theorem from?_succ (s : Stmt) (rest : Block) (i : Nat) (path : Path) :
    from? ((i + 1) :: path) (s :: rest) = from? (i :: path) rest := by
  cases path <;> simp [from?]

variable {path : Path} {b : Block} {s : Stmt}

theorem from?_zero (hpath : path ≠ []) (s : Stmt) (rest : Block) :
    from? (0 :: path) (s :: rest) = s.body?.bind (from? path) := by
  cases path with
  | nil => exact absurd rfl hpath
  | cons i path => simp [from?]

theorem from?_append {parent : Path} (hparent : parent ≠ []) (i : Nat) (b : Block) :
    from? (parent ++ [i]) b = ((get? parent b).bind (·.body?)).map (·.drop i) := by
  induction parent generalizing b with
  | nil => exact absurd rfl hparent
  | cons j parent ih =>
    cases parent with
    | nil =>
      cases hinner : (b[j]?).bind (·.body?) <;> simp [from?, get?, hinner]
    | cons k parent =>
      have hstep : from? (j :: k :: parent ++ [i]) b =
          ((b[j]?).bind (·.body?)).bind (from? (k :: parent ++ [i])) := rfl
      have hget : get? (j :: k :: parent) b = ((b[j]?).bind (·.body?)).bind (get? (k :: parent)) := by
        cases hj : b[j]? <;> simp [get?, hj]
      rw [hstep, hget]
      cases (b[j]?).bind (·.body?) with
      | none => rfl
      | some inner => exact ih (by simp) inner

/-! ## Another end of a block -/

/-- The second block is the first one with `t'` in the place of `t`, the end of a block in it from the
path on. -/
inductive Recast (t t' : Block) : Path → Block → Block → Prop
  | here : Recast t t' [0] t t'
  | next {i : Nat} {path : Path} {s : Stmt} {rest rest' : Block} :
    Recast t t' (i :: path) rest rest' → Recast t t' ((i + 1) :: path) (s :: rest) (s :: rest')
  | inside {path : Path} {s : Stmt} {body body' rest : Block} :
    s.body? = some body → Recast t t' path body body' →
    Recast t t' (0 :: path) (s :: rest) (s.withBody body' :: rest)

namespace Recast

variable {t t' b b' : Block} {path : Path}

theorem behind (h : Recast t t' (0 :: path) b b') (front : Block) :
    Recast t t' (front.length :: path) (front ++ b) (front ++ b') := by
  induction front with
  | nil => exact h
  | cons s front ih => exact .next ih

section

variable (h : Recast t t' path b b')
include h

theorem path_ne_nil : path ≠ [] := by
  cases h <;> simp

theorem from? : b.from? path = some t := by
  induction h with
  | here => rfl
  | next _ ih => rw [from?_succ, ih]
  | inside hbody h ih =>
    rw [from?_zero h.path_ne_nil, hbody]
    exact ih

theorem symm : Recast t' t path b' b := by
  induction h with
  | here => exact .here
  | next _ ih => exact .next ih
  | @inside path s body body' rest hbody _ ih =>
    have hbody' : (s.withBody body').body? = some body' ∧ (s.withBody body').withBody body = s := by
      cases s <;> cases hbody <;> exact ⟨rfl, rfl⟩
    have hin : Recast t' t (0 :: path) (s.withBody body' :: rest)
        ((s.withBody body').withBody body :: rest) := .inside hbody'.1 ih
    rwa [hbody'.2] at hin

theorem mem_nested {s : Stmt} (hs : s ∈ t.nested) : s ∈ b.nested := by
  induction h with
  | here => exact hs
  | next _ ih => exact mem_nested_cons.2 (.inr (.inr ih))
  | inside hbody _ ih => exact mem_nested_cons.2 (.inr (.inl ⟨_, hbody, ih⟩))

theorem mem_binders {x : String} (hx : x ∈ t.binders) : x ∈ b.binders := by
  obtain ⟨s, hs, hx⟩ := List.mem_filterMap.1 hx
  exact List.mem_filterMap.2 ⟨s, h.mem_nested hs, hx⟩

theorem freshAll (ht : ∀ seen, Stmt.FreshAll seen t → Stmt.FreshAll seen t') {seen : List String}
    (hfresh : Stmt.FreshAll seen b) : Stmt.FreshAll seen b' := by
  induction h generalizing seen with
  | here => exact ht seen hfresh
  | next _ ih => exact ⟨hfresh.1, ih hfresh.2⟩
  | @inside path s body body' rest hbody _ ih =>
    obtain ⟨hhead, hrest⟩ := hfresh
    cases s with
    | loop hd b =>
      cases hbody
      exact ⟨⟨hhead.1, ih hhead.2⟩, hrest⟩
    | guard e b =>
      cases hbody
      exact ⟨ih hhead, hrest⟩
    | _ => cases hbody

end

/-- The statement that the new part starts with. -/
theorem get? {s : Stmt} {rest : Block} (h : Recast t (s :: rest) path b b') :
    b'.get? path = some s := by
  induction h with
  | here => rfl
  | next _ ih => rw [get?_succ, ih]
  | @inside path u body body' rest hbody h ih =>
    rw [get?_zero h.path_ne_nil]
    cases u <;> cases hbody <;> exact ih

end Recast

theorem split_of_getElem? {i : Nat} {t : Stmt} (h : b[i]? = some t) :
    (b.take i).length = i ∧ b = b.take i ++ t :: b.drop (i + 1) := by
  obtain ⟨hi, rfl⟩ := List.getElem?_eq_some_iff.1 h
  refine ⟨by simp; omega, ?_⟩
  rw [← List.drop_eq_getElem_cons hi, List.take_append_drop]

/-- **Changing a block from a statement on.** The statement stands behind `front` in its block, and
whatever edit leaves `front` as it is does such a change. -/
theorem recast_of_get? (h : b.get? path = some s) :
    ∃ front rest, path.position = front.length ∧
      (∀ p : Proc, p.body = b → p.container? path = some (front ++ s :: rest)) ∧
      ∀ t', ∃ b', (∀ f, f front.length (front ++ s :: rest) = front ++ t' →
          b.edit? f path = some b') ∧ Recast (s :: rest) t' path b b' := by
  induction path generalizing b with
  | nil => cases h
  | cons i path ih =>
    cases path with
    | nil =>
      obtain ⟨hlen, hb⟩ := split_of_getElem? h
      refine ⟨b.take i, b.drop (i + 1), hlen.symm, fun p hp => ?_, fun t' =>
        ⟨b.take i ++ t', fun f hf => ?_, ?_⟩⟩
      · rw [← hb, ← hp]
        rfl
      · rw [hlen, ← hb] at hf
        exact congrArg some hf
      · have hrecast := (Recast.here : Recast (s :: b.drop (i + 1)) t' _ _ _).behind (b.take i)
        rwa [hlen, ← hb] at hrecast
    | cons j path =>
      simp only [get?, option_bind_eq_some] at h
      obtain ⟨u, hu, body, hbody, h⟩ := h
      obtain ⟨front, rest, hposition, hcontainer, hedit⟩ := ih h
      refine ⟨front, rest, ?_, fun p hp => ?_, fun t' => ?_⟩
      · rw [← hposition, Path.position, List.getLast?_cons_cons]
        rfl
      · rw [← hcontainer { p with body := body } rfl]
        cases path <;> simp [Proc.container?, Path.parent?, Proc.stmt?, get?, hp, hu, hbody]
      · obtain ⟨body', hbody', hrecast⟩ := hedit t'
        obtain ⟨hlen, hb⟩ := split_of_getElem? hu
        refine ⟨b.set i (u.withBody body'), fun f hf => ?_, ?_⟩
        · simp [edit?, hu, hbody, hbody' f hf]
        · have hin := (Recast.inside hbody hrecast : Recast _ t' _ (u :: b.drop (i + 1)) _).behind
            (b.take i)
          rw [hlen, ← hb] at hin
          rwa [List.set_eq_take_append_cons_drop, if_pos (List.getElem?_eq_some_iff.1 hu).1]

/-- The statements from a path on start with the one at the path. -/
theorem from?_of_get? (h : b.get? path = some s) : ∃ rest, b.from? path = some (s :: rest) := by
  obtain ⟨_, rest, -, -, hedit⟩ := recast_of_get? h
  obtain ⟨_, -, hrecast⟩ := hedit []
  exact ⟨rest, hrecast.from?⟩

theorem mem_nested_of_get? (h : b.get? path = some s) : s ∈ b.nested := by
  obtain ⟨_, rest, -, -, hedit⟩ := recast_of_get? h
  obtain ⟨_, -, hrecast⟩ := hedit []
  exact hrecast.mem_nested (mem_nested_cons.2 (.inl rfl))

/-! ## Other statements in the place of some -/

/-- `new` in the place of the statement `s` at a path turns the first block into the second. -/
def Replaced (s : Stmt) (new : Block) (path : Path) (b b' : Block) : Prop :=
  ∃ rest, Recast (s :: rest) (new ++ rest) path b b'

/-- `new` in the place of `old`, from a path on, turns the first block into the second. -/
def Spliced (old new : Block) (path : Path) (b b' : Block) : Prop :=
  ∃ rest, Recast (old ++ rest) (new ++ rest) path b b'

/-- Replacing works wherever there is a statement. -/
theorem replaced_of_get? (new : Block) (h : b.get? path = some s) :
    ∃ b', b.replace? path new = some b' ∧ Replaced s new path b b' := by
  obtain ⟨front, rest, -, -, hedit⟩ := recast_of_get? h
  obtain ⟨b', hb', hrecast⟩ := hedit (new ++ rest)
  exact ⟨b', hb' _ (by simp [splice]), rest, hrecast⟩

/-- What an edit does that splices statements in. -/
theorem spliced_of_edit? {new : Block} {b' code : Block} {count : Nat}
    (hedit : b.edit? (splice new count) path = some b') (hget : b.get? path = some s)
    (hfrom : b.from? path = some code) : Spliced (code.take count) new path b b' := by
  obtain ⟨front, rest, -, -, hall⟩ := recast_of_get? hget
  obtain ⟨b₁, hb₁, hrecast⟩ := hall (new ++ (s :: rest).drop count)
  obtain rfl : b₁ = b' := Option.mem_unique (hb₁ _ (by simp [splice])) hedit
  obtain rfl := Option.mem_unique hrecast.from? hfrom
  exact ⟨(s :: rest).drop count, by rwa [List.take_append_drop]⟩

end Block

theorem Proc.from?_of_container? {p : Proc} {path : Path} (hpath : path ≠ []) {b : Block}
    (h : p.container? path = some b) : p.body.from? path = some (b.drop path.position) := by
  obtain ⟨parent, i, rfl⟩ := (List.eq_nil_or_concat' path).resolve_left hpath
  have hpos : Path.position (parent ++ [i]) = i := by simp [Path.position]
  rw [hpos]
  cases parent with
  | nil =>
    cases h
    rfl
  | cons j parent =>
    rw [Block.from?_append (by simp)]
    have hparent : Path.parent? (j :: parent ++ [i]) = some (j :: parent) := by
      rw [Path.parent?, if_neg (by simp), List.dropLast_concat]
    rw [container?, hparent] at h
    exact congrArg (Option.map (List.drop i)) h

end LoopNest
