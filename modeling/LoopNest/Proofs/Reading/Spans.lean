import LoopNest.Proofs.Reading.Script

/-!
# Spans of script steps

Every line of a script is blank, or a comment, or a step with blanks around it (`Line`), so a script
is made of such lines one after another (`Marked`). The spans are where the steps stand in them, and
the text of a span alone is read as the step (`Placed`).
-/

namespace LoopNest.Script

open Text

/-! ## Lines -/

theorem newline_not_mem_dropLast {s line : List Char} (h : line ∈ lines s) :
    '\n' ∉ line.dropLast := by
  induction s generalizing line with
  | nil => cases h
  | cons c s ih =>
    rw [lines] at h
    split at h
    · obtain rfl | h := List.mem_cons.1 h
      · simp
      · exact ih h
    · rename_i hc
      split at h
      · obtain rfl := List.mem_singleton.1 h
        simp
      · rename_i l ls hlines
        obtain rfl | h := List.mem_cons.1 h
        · have hl := ih (hlines ▸ List.mem_cons_self)
          cases l with
          | nil => simp
          | cons d l => simp [Ne.symm hc, hl]
        · exact ih (hlines ▸ .tail _ h)

theorem lines_eq_singleton {t : List Char} (hne : t ≠ []) (h : '\n' ∉ t) : lines t = [t] := by
  induction t with
  | nil => exact absurd rfl hne
  | cons c t ih =>
    obtain ⟨hc, ht⟩ := not_or.1 (mt List.mem_cons.2 h)
    rw [lines, if_neg (Ne.symm hc)]
    cases t with
    | nil => rfl
    | cons d t => rw [ih (List.cons_ne_nil d t) ht]

/-- A line without the blanks around it. -/
theorem exists_trimmed (line : List Char) : ∃ left t right, line = left ++ t ++ right ∧
    left.all isBlank ∧ right.all isBlank ∧ trimRight line = left ++ t ∧ trimLeft (left ++ t) = t ∧
    trimRight t = t ∧ trimLeft t = t := by
  have hcontent : (trimRight line).takeWhile isBlank ++ trimLeft (trimRight line) =
      trimRight line := List.takeWhile_append_dropWhile
  refine ⟨(trimRight line).takeWhile isBlank, trimLeft (trimRight line),
    (line.reverse.takeWhile isBlank).reverse, ?_, List.all_takeWhile, ?_, hcontent.symm,
    by rw [hcontent], ?_, List.dropWhile_idempotent ..⟩
  · rw [hcontent, trimRight, ← List.reverse_append, List.takeWhile_append_dropWhile,
      List.reverse_reverse]
  · rw [List.all_reverse]
    exact List.all_takeWhile
  · refine List.rdropWhile_eq_self_iff.2 fun hne => ?_
    have hlast : (trimLeft (trimRight line)).getLast hne = _ :=
      (List.dropWhile_suffix isBlank).getLast hne
    rw [hlast]
    exact List.rdropWhile_last_not _ _ _

theorem Call.offset_le_of_parse {s : String} {e : ParseError} (h : Call.parse s = .error e) :
    e.offset ≤ byteLength s.toList := by
  rw [Call.parse] at h
  split at h
  · obtain rfl := Except.error.inj h
    exact Nat.sub_le ..
  · split at h
    · cases h
    · cases h
    · obtain rfl := Except.error.inj h
      exact Nat.sub_le ..

/-- The call of a line that has one is read without the blanks around it. -/
theorem parseLine_eq {line left t : List Char} (start : Nat) (hcontent : trimRight line = left ++ t)
    (hstep : trimLeft (left ++ t) = t) (hne : t ≠ []) (hcomment : ∀ u, t ≠ '#' :: u) :
    parseLine start line =
      match Call.parse (String.ofList t) with
      | .error e => .error { e with offset := start + byteLength left + e.offset }
      | .ok c =>
        match c.step with
        | .error message => .error ⟨message, start + byteLength left⟩
        | .ok s => .ok (some (s, ⟨start + byteLength left, start + byteLength (left ++ t)⟩)) := by
  have hlead : byteLength (left ++ t) - byteLength t = byteLength left := by simp
  have hline := parseLine.eq_1 start line
  simp only [hcontent, hstep, hlead] at hline
  exact hline

/-- A line that starts at byte `start`, with the step in it if it is not blank and no comment. The
text of the step alone is a script. -/
inductive Line (start : Nat) : List Char → Option (Step × Span) → Prop
  | skip {line : List Char} (h : ∀ c ∈ (trimLeft line).head?, c = '#') : Line start line none
  | step {left t right : List Char} {s : Step} (hleft : left.all isBlank)
      (hright : right.all isBlank) (hne : t ≠ [])
      (ht : parse (String.ofList t) = .ok ⟨[s], [⟨0, byteLength t⟩]⟩) :
      Line start (left ++ t ++ right)
        (some (s, ⟨start + byteLength left, start + byteLength (left ++ t)⟩))

theorem parseLine_cases (start : Nat) {line : List Char} (hline : '\n' ∉ line.dropLast) :
    match parseLine start line with
    | .error e => e.offset ≤ start + byteLength line
    | .ok x => Line start line x := by
  obtain ⟨left, t, right, rfl, hleft, hright, hcontent, hstep, htrim, htrim'⟩ := exists_trimmed line
  have hdrop : trimLeft (left ++ t ++ right) = trimLeft (t ++ right) := by
    rw [List.append_assoc]
    exact List.dropWhile_append_of_pos (List.all_eq_true.1 hleft)
  by_cases hne : t = []
  · subst hne
    have hnil : trimLeft (left ++ [] ++ right) = [] :=
      hdrop.trans (List.dropWhile_eq_nil_iff.2 (List.all_eq_true.1 hright))
    simp only [parseLine, hcontent, hstep]
    exact .skip (by simp only [hnil]; simp)
  by_cases hcomment : ∃ u, t = '#' :: u
  · obtain ⟨u, rfl⟩ := hcomment
    have hhash : trimLeft (left ++ '#' :: u ++ right) = '#' :: (u ++ right) := hdrop
    simp only [parseLine, hcontent, hstep]
    exact .skip (by simp only [hhash]; simp)
  rw [not_exists] at hcomment
  rw [parseLine_eq start hcontent hstep hne hcomment]
  cases hcall : Call.parse (String.ofList t) with
  | error e =>
    have hle := Call.offset_le_of_parse hcall
    rw [String.toList_ofList] at hle
    simp only [byteLength_append]
    omega
  | ok c =>
    cases hs : c.step with
    | error message =>
      simp only [hs, byteLength_append]
      omega
    | ok s =>
      simp only [hs]
      have hnl : '\n' ∉ t := by
        intro hmem
        obtain ⟨a, b, rfl⟩ := List.append_of_mem hmem
        cases b with
        -- what is trimmed does not end in a blank
        | nil => exact List.rdropWhile_eq_self_iff.1 htrim hne (by simp [isBlank])
        | cons d b => simp at hline
      refine .step hleft hright hne ?_
      have hwhole : trimRight t = [] ++ t := htrim
      rw [parse, String.toList_ofList, lines_eq_singleton hne hnl, parseLines,
        parseLine_eq 0 hwhole htrim' hne hcomment, hcall]
      simp only [hs]
      rw [Nat.zero_add, Nat.zero_add]
      rfl

/-! ## Scripts -/

/-- Lines, the first of which starts at byte `start`, with the steps in them. -/
inductive Marked : Nat → List (List Char) → List (Step × Span) → Prop
  | nil (start : Nat) : Marked start [] []
  | cons {start : Nat} {line : List Char} {x : Option (Step × Span)} {ls : List (List Char)}
      {steps : List (Step × Span)} (hline : Line start line x)
      (hls : Marked (start + byteLength line) ls steps) :
      Marked start (line :: ls) (x.toList ++ steps)

theorem parseLines_cases (start : Nat) {ls : List (List Char)}
    (h : ∀ line ∈ ls, '\n' ∉ line.dropLast) :
    match parseLines start ls with
    | .error e => e.offset ≤ start + byteLength ls.flatten
    | .ok steps => Marked start ls steps := by
  induction ls generalizing start with
  | nil => exact .nil start
  | cons line ls ih =>
    obtain ⟨hline, hls⟩ := List.forall_mem_cons.1 h
    have hfirst := parseLine_cases start hline
    have hrest := ih (start + byteLength line) hls
    rw [parseLines, List.flatten_cons, byteLength_append]
    cases hx : parseLine start line with
    | error e =>
      rw [hx] at hfirst
      exact Nat.le_trans hfirst (by omega)
    | ok x =>
      rw [hx] at hfirst
      cases hsteps : parseLines (start + byteLength line) ls with
      | error e =>
        rw [hsteps] at hrest
        exact Nat.le_trans hrest (by omega)
      | ok steps =>
        rw [hsteps] at hrest
        exact .cons hfirst hrest

/-- The step is read from its span of the text, the first character of which is at byte `start`. -/
def Placed (start : Nat) (text : List Char) (x : Step × Span) : Prop :=
  ∃ pre t post, text = pre ++ t ++ post ∧ t ≠ [] ∧ start + byteLength pre = x.2.start ∧
    start + byteLength (pre ++ t) = x.2.stop ∧
    parse (String.ofList t) = .ok ⟨[x.1], [⟨0, byteLength t⟩]⟩

namespace Marked

variable {start : Nat} {ls : List (List Char)} {steps : List (Step × Span)}

theorem placed (h : Marked start ls steps) : ∀ x ∈ steps, Placed start ls.flatten x := by
  induction h with
  | nil => simp
  | @cons start line x ls steps hline _ ih =>
    rw [List.forall_mem_append]
    constructor
    · cases hline with
      | skip => simp
      | @step left t right s _ _ hne ht =>
        exact List.forall_mem_singleton.2 ⟨left, t, right ++ ls.flatten, by simp, hne, rfl, rfl, ht⟩
    · intro x hx
      obtain ⟨pre, t, post, htext, hne, hstart, hstop, ht⟩ := ih x hx
      refine ⟨line ++ pre, t, post, by simp [htext], hne, ?_, ?_, ht⟩
      · rw [byteLength_append, ← Nat.add_assoc, hstart]
      · rw [List.append_assoc, byteLength_append, ← Nat.add_assoc, hstop]

theorem pairwise (h : Marked start ls steps) :
    steps.Pairwise (fun x y => x.2.stop ≤ y.2.start) := by
  induction h with
  | nil => exact .nil
  | @cons start line x ls steps hline hls ih =>
    cases hline with
    | skip => exact ih
    | @step left t right =>
      refine List.pairwise_cons.2 ⟨fun y hy => ?_, ih⟩
      obtain ⟨pre, -, -, -, -, hstart, -⟩ := hls.placed y hy
      rw [← hstart, byteLength_append _ right]
      show start + byteLength (left ++ t) ≤ _
      omega

theorem line (h : Marked start ls steps) {before after : List (List Char)} {line : List Char}
    (hls : ls = before ++ line :: after) :
    ∃ x, Line (start + byteLength before.flatten) line x ∧ ∀ y ∈ x, y ∈ steps := by
  induction h generalizing before with
  | nil => simp at hls
  | @cons start line' x ls steps hline _ ih =>
    cases before with
    | nil =>
      obtain ⟨rfl, -⟩ := List.cons.inj hls
      exact ⟨x, hline, fun y hy => by simp [Option.mem_def.1 hy]⟩
    | cons l before =>
      obtain ⟨rfl, hrest⟩ := List.cons.inj hls
      obtain ⟨x, hx, hmem⟩ := ih hrest
      refine ⟨x, ?_, fun y hy => List.mem_append_right _ (hmem y hy)⟩
      rwa [List.flatten_cons, byteLength_append, ← Nat.add_assoc]

end Marked

/-- **Spans identify their steps.** The spans of a script that is read stand one behind the other,
all lines are blank or comments but for them and the blanks around them, and the text of a span
alone is read as the step. An error is reported inside the text. -/
theorem parse_spans (s : String) :
    match parse s with
    | .error e => e.offset ≤ byteLength s.toList
    | .ok script =>
      script.spans.length = script.schedule.length ∧
      (∀ sp ∈ script.spans, sp.start < sp.stop ∧ sp.stop ≤ byteLength s.toList) ∧
      script.spans.Pairwise (fun a b => a.stop ≤ b.start) ∧
      (∀ before line after, lines s.toList = before ++ line :: after →
        (∀ c ∈ (trimLeft line).head?, c = '#') ∨
        ∃ left step right, line = left ++ step ++ right ∧ left.all isBlank ∧ right.all isBlank ∧
          ⟨byteLength (before.flatten ++ left), byteLength (before.flatten ++ left ++ step)⟩ ∈
            script.spans) ∧
      ∀ x ∈ script.schedule.zip script.spans, ∃ pre t post, s.toList = pre ++ t ++ post ∧
        byteLength pre = x.2.start ∧ byteLength (pre ++ t) = x.2.stop ∧
        parse (String.ofList t) = .ok ⟨[x.1], [⟨0, byteLength t⟩]⟩ := by
  -- spans are counted from the start of the text, so the lines are followed from offset 0
  have hcases := parseLines_cases 0 fun line (hline : line ∈ lines s.toList) =>
    newline_not_mem_dropLast hline
  rw [flatten_lines, Nat.zero_add] at hcases
  rw [parse]
  cases hsteps : parseLines 0 (lines s.toList) with
  | error e =>
    rw [hsteps] at hcases
    exact hcases
  | ok steps =>
    rw [hsteps] at hcases
    have hplaced := hcases.placed
    rw [flatten_lines] at hplaced
    refine ⟨by simp, ?_, List.pairwise_map.2 hcases.pairwise, fun before line after hls => ?_, ?_⟩
    · show ∀ sp ∈ steps.map (·.2), _
      rw [List.forall_mem_map]
      intro x hx
      obtain ⟨pre, t, post, htext, hne, hstart, hstop, -⟩ := hplaced x hx
      obtain ⟨c, u, rfl⟩ := List.exists_cons_of_ne_nil hne
      have hpos := c.utf8Size_pos
      rw [← hstart, ← hstop, htext]
      simp only [byteLength_append, byteLength]
      omega
    · obtain ⟨x, hline, hmem⟩ := hcases.line hls
      cases hline with
      | skip h => exact .inl h
      | @step left t right s hleft hright =>
        refine .inr ⟨left, t, right, rfl, hleft, hright, ?_⟩
        have hspan := List.mem_map_of_mem (f := (·.2)) (hmem _ rfl)
        simpa [Nat.add_assoc] using hspan
    · show ∀ x ∈ (steps.map (·.1)).zip (steps.map (·.2)), _
      rw [← List.zip_of_prod rfl rfl]
      intro x hx
      obtain ⟨pre, t, post, htext, -, hstart, hstop, ht⟩ := hplaced x hx
      rw [Nat.zero_add] at hstart hstop
      exact ⟨pre, t, post, htext, hstart, hstop, ht⟩

end LoopNest.Script
