import LoopNest.Proofs.Contract.Calls
import LoopNest.Proofs.Matching.Call
import LoopNest.Proofs.Selection
import LoopNest.Step.Instruction

/-!
# Replacing all matches comes to an end

Matches are replaced one after the other, and after each of them the search starts again from the
top. A replacement takes as many statements away from those that could match as the template has
(`Proc.countMatchable_substitute`), so the rounds come to an end if it has any. Registering a
template does not ask for that. One without statements matches in front of every statement but a
call, and the call that is put there leaves the match as it was (`Proc.replaceRounds_of_empty`).
-/

namespace LoopNest

variable {s : Stmt} {body : Block}

/-- Calls are passed over when matches are looked for. -/
def Stmt.isCall : Stmt → Bool
  | .call .. => true
  | _ => false

/-! ## Counting statements -/

namespace Block

/-- The number of statements that a template could match, at any depth. -/
def matchable (b : Block) : Nat := b.nested.countP (!·.isCall)

theorem matchable_append (b b' : Block) : matchable (b ++ b') = b.matchable + b'.matchable := by
  rw [matchable, nested, Stmt.nestedAll_append, List.countP_append]
  rfl

theorem matchable_cons (s : Stmt) (rest : Block) :
    matchable (s :: rest) = matchable [s] + rest.matchable := matchable_append [s] rest

theorem matchable_of_body? (h : s.body? = some body) : matchable [s] = body.matchable + 1 := by
  have hcall : s.isCall = false := by cases s <;> first | rfl | cases h
  have hnil : nested [] = [] := rfl
  rw [matchable, nested_cons, h, hnil]
  simp [hcall, matchable]

theorem matchable_withBody (h : s.body? = some body) (body' : Block) :
    matchable [s.withBody body'] = body'.matchable + 1 := by
  refine matchable_of_body? ?_
  cases s <;> first | rfl | cases h

theorem matchable_call (name : String) (args : List Window) : matchable [.call name args] = 0 := rfl

/-! ## Splicing at a path -/

variable {new : Block} {count : Nat} {path : Path} {b b' rest : Block}

/-- Where there are statements, some of them can be replaced. -/
theorem edit?_isSome (f : Nat → Block → Block) (h : b.from? path = some rest) :
    ∃ b', b.edit? f path = some b' := by
  induction path generalizing b with
  | nil => cases h
  | cons i path ih =>
    cases path with
    | nil => exact ⟨_, rfl⟩
    | cons j path =>
      simp only [from?, Option.bind_eq_some_iff] at h
      obtain ⟨body, ⟨s, hs, hbody⟩, h⟩ := h
      obtain ⟨body', hedit⟩ := ih h
      exact ⟨b.set i (s.withBody body'), by simp [edit?, hs, hbody, hedit]⟩

/-- **What splicing does to the count.** The induction is on the path; only one statement of the
block at hand changes. -/
theorem matchable_splice (h : b.edit? (splice new count) path = some b')
    (hrest : b.from? path = some rest) :
    b'.matchable + matchable (rest.take count) = b.matchable + new.matchable := by
  induction path generalizing b b' with
  | nil => cases h
  | cons i path ih =>
    cases path with
    | nil =>
      cases h
      cases hrest
      -- the block is what is before the path, what is taken out, and what is behind
      have hsplit : b = b.take i ++ ((b.drop i).take count ++ b.drop (i + count)) := by
        rw [← List.drop_drop, List.take_append_drop, List.take_append_drop]
      have hcount := congrArg matchable hsplit
      simp only [matchable_append] at hcount
      simp only [splice, matchable_append]
      omega
    | cons j path =>
      simp only [from?, Option.bind_eq_some_iff] at hrest
      obtain ⟨body, ⟨s, hs, hbody⟩, hrest⟩ := hrest
      obtain ⟨body', hedit⟩ := edit?_isSome (splice new count) hrest
      obtain rfl : b.set i (s.withBody body') = b' := by simpa [edit?, hs, hbody, hedit] using h
      have hinner := ih hedit hrest
      -- the statement on the path counts itself and its body, before and after
      obtain ⟨-, hb⟩ := split_of_getElem? hs
      have hcount := congrArg matchable hb
      rw [matchable_append, matchable_cons, matchable_of_body? hbody] at hcount
      rw [List.set_eq_take_append_cons_drop, if_pos (List.getElem?_eq_some_iff.1 hs).1,
        matchable_append, matchable_cons, matchable_withBody hbody]
      omega

end Block

/-- Code that is aligned with a template has as many statements, and no calls. -/
theorem Matching.BlockAligned.matchable_eq {sites : String → Option Site} {ρ : Renaming}
    {ts cs : Block} (h : BlockAligned sites ρ ts cs) : cs.matchable = ts.nested.length := by
  induction ts using Block.induction generalizing ρ cs with
  | nil =>
    cases h
    rfl
  | cons t ts ihs ihrest =>
    obtain _ | ⟨hstmt, hrest⟩ := h
    rw [Block.matchable_cons, Block.nested_cons, ihrest hrest, List.length_cons, List.length_append]
    cases hstmt with
    | loop _ _ _ hbody | guard _ hbody =>
      rw [Block.matchable_of_body? rfl, ihs _ rfl hbody]
      simp only [Stmt.body?, Option.map_some, Option.getD_some]
      omega
    | store _ _ =>
      have hone : ∀ (u : Update) b idx rhs, Block.matchable [.store u b idx rhs] = 1 :=
        fun _ _ _ _ => rfl
      rw [hone]
      simp only [Stmt.body?, Option.map_none, Option.getD_none, List.length_nil]
      omega

/-! ## The first match -/

namespace Proc

variable {p t : Proc} {path : Path} {call : Stmt}

theorem firstMatch?_eq (p t : Proc) : p.firstMatch? t = p.body.visits.findSome? fun v =>
    if v.2.isCall then none else (p.matchAt t v.1).toOption.map (v.1, ·) := by
  rw [firstMatch?]
  congr 1
  funext ⟨path, s⟩
  cases s <;> cases hmatch : p.matchAt t path <;> simp [Stmt.isCall, hmatch, Except.toOption]

theorem of_firstMatch? (h : p.firstMatch? t = some (path, call)) :
    ∃ s, p.stmt? path = some s ∧ s.isCall = false ∧ p.matchAt t path = .ok call := by
  rw [firstMatch?_eq] at h
  obtain ⟨⟨q, s⟩, hmem, h⟩ := List.exists_of_findSome?_eq_some h
  split at h
  · cases h
  next hcall =>
    obtain ⟨call', hmatch, h⟩ := Option.map_eq_some_iff.1 h
    obtain ⟨rfl, rfl⟩ := Prod.mk.inj h
    refine ⟨s, Block.mem_visits.1 hmem, by simpa using hcall, ?_⟩
    cases hok : p.matchAt t q with
    | error e => simp [hok, Except.toOption] at hmatch
    | ok c => simpa [hok, Except.toOption] using hmatch

/-- Where a statement other than a call matches, some match is the first one. -/
theorem firstMatch?_ne_none (hs : p.stmt? path = some s) (hcall : s.isCall = false)
    (hmatch : p.matchAt t path = .ok call) : p.firstMatch? t ≠ none := by
  intro hnone
  rw [firstMatch?_eq] at hnone
  have hhere := List.findSome?_eq_none_iff.1 hnone (path, s) (Block.mem_visits.2 hs)
  simp [hcall, hmatch, Except.toOption] at hhere

/-! ## Rounds -/

theorem countMatchable_eq (p : Proc) : p.countMatchable = p.body.matchable := by
  rw [countMatchable, Block.matchable, List.countP_eq_length_filter]
  congr 2
  funext s
  cases s <;> rfl

/-- **What a round does.** It succeeds, and as many statements as the template has can no longer
match. -/
theorem countMatchable_substitute (h : p.firstMatch? t = some (path, call)) :
    ∃ q, p.substitute path t call = .ok q ∧
      q.countMatchable + t.body.nested.length = p.countMatchable := by
  obtain ⟨s, hs, -, hmatch⟩ := of_firstMatch? h
  have hpath : path ≠ [] := by
    rintro rfl
    cases hs
  obtain ⟨b, m, args, hb, hlen, hstmts, -, rfl⟩ := of_matchAt hmatch
  have hfrom := from?_of_container? hpath hb
  obtain ⟨body, hedit⟩ := Block.edit?_isSome (Block.splice [.call t.name args] t.body.length) hfrom
  refine ⟨{ p with body }, by rw [substitute, hedit]; rfl, ?_⟩
  have haligned := (Matching.stmts_aligned hlen (by simp) hstmts).aligned
    (fun x => m.sites.lookup x) fun _ _ h => h
  have hcount := Block.matchable_splice hedit hfrom
  rw [haligned.matchable_eq, Block.matchable_call] at hcount
  rw [countMatchable_eq, countMatchable_eq]
  exact hcount

/-- With enough rounds all matches of a template with a body are replaced. -/
theorem replaceRounds_ends (hbody : t.body ≠ []) {n : Nat} (hn : p.countMatchable ≤ n)
    (any : Bool) : ∃ q any', replaceRounds t n any p = .ok (q, any') ∧ q.firstMatch? t = none := by
  have hpos : 0 < t.body.nested.length := by
    obtain ⟨s, rest, hcons⟩ := List.exists_cons_of_ne_nil hbody
    rw [hcons, Block.nested_cons]
    exact Nat.succ_pos _
  induction n generalizing p any with
  | zero =>
    unfold replaceRounds
    cases hfirst : p.firstMatch? t with
    | none => exact ⟨p, any, rfl, hfirst⟩
    | some m =>
      -- a match would take statements away, and there are none left
      obtain ⟨q, -, hcount⟩ := countMatchable_substitute hfirst
      omega
  | succ n ih =>
    unfold replaceRounds
    cases hfirst : p.firstMatch? t with
    | none => exact ⟨p, any, rfl, hfirst⟩
    | some m =>
      obtain ⟨q, hq, hcount⟩ := countMatchable_substitute hfirst
      simp only [hq]
      exact ih (by omega) true

/-- Where no statement could match, none is replaced. -/
theorem replaceRounds_of_unmatchable (h : p.countMatchable = 0) (n : Nat) (any : Bool) :
    replaceRounds t n any p = .ok (p, any) := by
  have hfirst : p.firstMatch? t = none := by
    refine Option.eq_none_iff_forall_ne_some.2 fun m hm => ?_
    obtain ⟨s, hs, hcall, -⟩ := of_firstMatch? hm
    rw [countMatchable_eq, Block.matchable, List.countP_eq_zero] at h
    exact h s (Block.mem_nested_of_get? hs) (by rw [hcall]; rfl)
  unfold replaceRounds
  rw [hfirst]

/-! ## Templates without statements -/

theorem exists_of_countMatchable (h : 0 < p.countMatchable) : ∃ s ∈ p.body, s.isCall = false := by
  rw [countMatchable_eq] at h
  generalize p.body = b at h
  induction b with
  | nil => cases h
  | cons s rest ih =>
    cases hs : s.isCall with
    | false => exact ⟨s, .head _, hs⟩
    | true =>
      have hzero : Block.matchable [s] = 0 := by
        cases s with
        | call name args => exact Block.matchable_call name args
        | _ => cases hs
      rw [Block.matchable_cons, hzero, Nat.zero_add] at h
      obtain ⟨s', hmem, hs'⟩ := ih h
      exact ⟨s', .tail _ hmem, hs'⟩

/-- Without statements a template has no parameters either, and matches anywhere. -/
theorem matchAt_of_empty (hbody : t.body = []) (hparams : t.params = []) {i : Nat}
    (hi : i ≤ p.body.length) : p.matchAt t [i] = .ok (.call t.name []) := by
  have hcontainer : p.container? [i] = some p.body := rfl
  have hposition : Path.position [i] = i := rfl
  have hnone : t.bufferParams = [] := by rw [bufferParams, hparams]; rfl
  have hstmts : Matching.stmts t [] {} [] (p.body.drop i) = .ok {} := by
    rw [Matching.stmts]
    simp
  have hfits : ¬ p.body.length < i + 0 := by omega
  simp only [matchAt, hcontainer, hposition, hbody, List.length_nil, if_neg hfits, hstmts, hnone]
  rfl

/-- A round with a template without statements leaves as many that could match as before. -/
theorem substitute_of_empty (hbody : t.body = []) (hparams : t.params = [])
    (hp : 0 < p.countMatchable) : ∃ path call q, p.firstMatch? t = some (path, call) ∧
      p.substitute path t call = .ok q ∧ q.countMatchable = p.countMatchable := by
  obtain ⟨s, hs, hcall⟩ := exists_of_countMatchable hp
  obtain ⟨i, hi⟩ := List.getElem?_of_mem hs
  have hstmt : p.stmt? [i] = some s := hi
  have hmatch : p.matchAt t [i] = .ok (.call t.name []) :=
    matchAt_of_empty hbody hparams (List.getElem?_eq_some_iff.1 hi).1.le
  obtain ⟨⟨path, call⟩, hfirst⟩ := Option.ne_none_iff_exists'.1
    (firstMatch?_ne_none hstmt hcall hmatch)
  obtain ⟨q, hq, hcount⟩ := countMatchable_substitute hfirst
  have hzero : t.body.nested.length = 0 := by rw [hbody]; rfl
  exact ⟨path, call, q, hfirst, hq, by omega⟩

/-- So there is always another round. -/
theorem replaceRounds_of_empty (hbody : t.body = []) (hparams : t.params = [])
    (hp : 0 < p.countMatchable) (n : Nat) (any : Bool) :
    replaceRounds t n any p = .error .endless := by
  induction n generalizing p any with
  | zero =>
    obtain ⟨path, call, q, hfirst, -⟩ := substitute_of_empty hbody hparams hp
    unfold replaceRounds
    rw [hfirst]
  | succ n ih =>
    obtain ⟨path, call, q, hfirst, hq, hcount⟩ := substitute_of_empty hbody hparams hp
    unfold replaceRounds
    simp only [hfirst, hq]
    exact ih (by omega) true

end Proc

/-! ## Catalogs -/

/-- A registered template without statements has no parameters: it would have to access them. -/
theorem Catalog.params_of_empty {c c' : Catalog} {t : Proc} (h : c.register t = .ok c')
    (hbody : t.body = []) : t.params = [] := by
  refine List.eq_nil_iff_forall_not_mem.2 fun q hq => ?_
  have hcheck := (register_eq_ok h).1 q hq
  cases q with
  | size n => cases hcheck
  | buffer d =>
    have huntouched : t.body.touches d.name = false := by rw [hbody]; rfl
    rw [checkParam, huntouched] at hcheck
    split at hcheck <;> cases hcheck

/-- **When replacing all matches comes to an end.** For a template of a catalog it does so exactly
if the template has statements or there is none in the kernel that could match, and then it takes no
more rounds than the kernel has such statements. Every single replacement succeeds and takes as many
of them away as the template has. -/
theorem Proc.replaceAll_ends_iff {ts : List Proc} {c : Catalog} {t : Proc} {name : String}
    (hc : Catalog.registerAll {} ts = (c, none)) (hfind : c.find? name = some t) (p : Proc) :
    ((∃ n, replaceRounds t n false p ≠ .error .endless) ↔ t.body ≠ [] ∨ p.countMatchable = 0) ∧
      (p.replaceAll c name = .error .endless ↔ ∀ n, replaceRounds t n false p = .error .endless) ∧
      ∀ (q : Proc) path call, q.firstMatch? t = some (path, call) →
        ∃ q', q.substitute path t call = .ok q' ∧
          q'.countMatchable + t.body.nested.length = q.countMatchable := by
  obtain ⟨c₀, c₁, hreg⟩ := (Catalog.of_registerAll hc t
    (List.mem_of_find?_eq_some hfind)).resolve_left List.not_mem_nil
  -- the count is enough rounds, or no number is
  have hends : t.body ≠ [] ∨ p.countMatchable = 0 →
      ∃ r, replaceRounds t p.countMatchable false p = .ok r := by
    rintro (hbody | hzero)
    · obtain ⟨q, any, hq, -⟩ := replaceRounds_ends hbody le_rfl false
      exact ⟨_, hq⟩
    · exact ⟨_, replaceRounds_of_unmatchable hzero _ false⟩
  have hendless : ¬(t.body ≠ [] ∨ p.countMatchable = 0) →
      ∀ n, replaceRounds t n false p = .error .endless := by
    intro hnot n
    rw [not_or, not_not] at hnot
    exact replaceRounds_of_empty hnot.1 (Catalog.params_of_empty hreg hnot.1)
      (Nat.pos_of_ne_zero hnot.2) n false
  have htemplate : template c name = .ok t := by rw [template, hfind]
  refine ⟨⟨fun ⟨n, hn⟩ => ?_, fun h => ?_⟩, ⟨fun h => ?_, fun h => ?_⟩, fun q path call =>
    countMatchable_substitute⟩
  · by_contra hnot
    exact hn (hendless hnot n)
  · obtain ⟨r, hr⟩ := hends h
    exact ⟨_, by rw [hr]; exact nofun⟩
  · refine hendless fun hnot => ?_
    obtain ⟨⟨q, any⟩, hr⟩ := hends hnot
    -- the rounds have ended, and what is checked after them is no loop
    have hlast : (if any then refusable (q.finishCalls c name) else .ok q) =
        .error StepFailure.endless := by
      rw [← h, replaceAll, htemplate]
      show _ = replaceRounds t p.countMatchable false p >>= _
      rw [hr]
      rfl
    split at hlast
    · cases hcalls : q.finishCalls c name <;> rw [hcalls] at hlast <;> cases hlast
    · cases hlast
  · rw [replaceAll, htemplate]
    show replaceRounds t p.countMatchable false p >>= _ = _
    rw [h]
    rfl

/-- The rows of a matrix are numbered by calls in the end. -/
theorem numberedRows_replaceAll_ends :
    let c : Catalog := ⟨[iota]⟩
    Catalog.registerAll {} [iota] = (c, none) ∧ c.find? "iota" = some iota ∧
      iota.body.nested.length = 2 ∧ numberedRows.countMatchable = 3 ∧
      (∃ n, Proc.replaceRounds iota n false numberedRows ≠ .error .endless) ∧
      numberedRows.replaceAll c "iota" ≠ .error .endless := by
  intro c
  have hc : Catalog.registerAll {} [iota] = (c, none) := rfl
  have hfind : c.find? "iota" = some iota := rfl
  obtain ⟨hends, hall, -⟩ := Proc.replaceAll_ends_iff hc hfind numberedRows
  have hrounds := hends.2 (.inl (List.cons_ne_nil _ _))
  refine ⟨hc, hfind, rfl, rfl, hrounds, fun h => ?_⟩
  obtain ⟨n, hn⟩ := hrounds
  exact hn (hall.1 h n)

/-- A template that does nothing. -/
def noOperation : Proc where
  name := "nop"
  params := []
  body := []
  instr := some "nop"

/-- A single store. -/
def clearOne : Proc where
  name := "clear_one"
  params := [.buffer ⟨"x", .f32, [.int 1], .dram⟩]
  body := [.store .set "x" [.int 0] (.int 0)]

/-- A template that does nothing may be registered. To put it wherever it matches takes more rounds
than any number. -/
theorem noOperation_replaceAll_endless :
    let c : Catalog := ⟨[noOperation]⟩
    Catalog.registerAll {} [noOperation] = (c, none) ∧ c.find? "nop" = some noOperation ∧
      clearOne.problems (some c.find?) = [] ∧
      ∀ n, Proc.replaceRounds noOperation n false clearOne = .error .endless :=
  ⟨rfl, rfl, rfl, fun n => Proc.replaceRounds_of_empty rfl rfl (by decide) n false⟩

end LoopNest
