import LoopNest.Proofs.Scoping
import LoopNest.Proofs.Selection

/-!
# One meaning for each name

The declaration of a buffer is found in two ways. A step goes down the path of a statement and looks
through what stands before it in each block (`Proc.visibleDecl?`). The check of a kernel passes over
all of its statements and carries along what is in scope (`Proc.scoped`). Both find the same
declaration at every statement, also where a name is used again (`Proc.visibleDecl?_eq_buffer?`).
-/

namespace LoopNest

open Stmt Block Scope

variable {p : Proc} {path : Path} {s : Stmt}

/-- Among parameters of different names it does not matter whether the first or the last one of a
name is found. -/
theorem Proc.buffer?_scope (hnodup : (p.params.map (·.name)).Nodup) (x : String) :
    p.scope.buffer? x = p.bufferParam? x := by
  rw [scope, bufferParam?, param?]
  generalize p.params = params at hnodup
  induction params using List.reverseRecOn with
  | nil => rfl
  | append_singleton params q ih =>
    rw [List.map_append, List.nodup_append] at hnodup
    rw [List.foldl_concat, buffer?_addParam, ih hnodup.1, List.find?_append]
    by_cases hq : q.name = x
    · have hnone : params.find? (·.name = x) = none := by simpa [hq] using hnodup.2.2
      simp [hq, hnone]
    · simp [hq]

/-! ## Going down a path -/

namespace Proc.visibleDecl?

variable (x : String) (found : Option Decl)

theorem go_here (b : Block) : go x found [0] b = found := by
  simp [go]

theorem go_next (s : Stmt) (rest : Block) (i : Nat) (path : Path) :
    go x found ((i + 1) :: path) (s :: rest) =
      go x ((s.decl?.filter (·.name = x)).or found) (i :: path) rest := by
  have hhere : (((s :: rest).take (i + 1)).filterMap (·.decl?)).reverse.find? (·.name = x) =
      (((rest.take i).filterMap (·.decl?)).reverse.find? (·.name = x)).or
        (s.decl?.filter (·.name = x)) := by
    rw [List.take_succ_cons, List.filterMap_cons]
    cases s.decl? with
    | none => simp
    | some d => by_cases hd : d.name = x <;> simp [List.find?_append, hd, Option.filter]
  cases path with
  | nil => simp only [go, hhere, Option.or_assoc]
  | cons j path =>
    unfold go
    simp only [hhere, Option.or_assoc, List.getElem?_cons_succ]

theorem go_inside {body : Block} (hbody : s.body? = some body) (rest : Block) {path : Path}
    (hpath : path ≠ []) : go x found (0 :: path) (s :: rest) = go x found path body := by
  cases path with
  | nil => exact absurd rfl hpath
  | cons i path => simp [go, hbody]

end Proc.visibleDecl?

/-! ## Passing over a block -/

theorem Stmt.scoped_eq (sc : Scope) (path : Path) (s : Stmt) : s.scoped sc path =
    ⟨path, sc, s⟩ :: (s.body?.map (scopedFrom (sc.inside s) path 0)).getD [] := by
  cases s <;> rfl

/-- The check comes to the statements that a walk visits, in the same order. -/
theorem Stmt.map_scopedFrom (sc : Scope) (path : Path) (i : Nat) (b : Block) :
    (scopedFrom sc path i b).map (fun v => (v.path, v.stmt)) =
      walkFrom (fun _ => true) path i b := by
  induction b using Block.induction generalizing sc path i with
  | nil => rfl
  | cons s rest ihs ihrest =>
    rw [scopedFrom, walkFrom, List.map_append, ihrest, scoped_eq, walk_eq, List.map_cons]
    cases hbody : s.body? with
    | none => rfl
    | some body => simp [ihs body hbody]

/-- **What is in scope at a statement** is what is found on the way down to it. The induction is on
the block: the scope grows behind an allocation, and is as before behind a body. -/
theorem Stmt.go_eq_buffer? {sc : Scope} {i : Nat} {b : Block} {v : Scoped}
    (h : v ∈ scopedFrom sc path i b) :
    ∃ j rest, v.path = path ++ (i + j) :: rest ∧
      ∀ x, Proc.visibleDecl?.go x (sc.buffer? x) (j :: rest) b = v.scope.buffer? x := by
  induction b using Block.induction generalizing sc path i with
  | nil => cases h
  | cons s rest ihs ihrest =>
    rw [scopedFrom, List.mem_append, scoped_eq, List.mem_cons] at h
    obtain (rfl | h) | h := h
    · exact ⟨0, [], rfl, fun x => Proc.visibleDecl?.go_here x _ _⟩
    · cases hbody : s.body? with
      | none => simp [hbody] at h
      | some body =>
        rw [hbody] at h
        obtain ⟨j, path', hpath, hfound⟩ := ihs body hbody h
        refine ⟨0, j :: path', by simp [hpath, Path.child], fun x => ?_⟩
        rw [Proc.visibleDecl?.go_inside x _ hbody rest (by simp), ← hfound, buffer?_inside]
    · obtain ⟨j, path', hpath, hfound⟩ := ihrest h
      refine ⟨j + 1, path', by rw [hpath, Nat.add_assoc, Nat.add_comm 1], fun x => ?_⟩
      rw [Proc.visibleDecl?.go_next, ← hfound, buffer?_after]

/-- **Steps and the check agree on what a name means.** The check comes to every statement once, and
with a scope in which each name stands for the declaration that a step finds. -/
theorem Proc.visibleDecl?_eq_buffer? (hnodup : (p.params.map (·.name)).Nodup)
    (hs : p.stmt? path = some s) :
    ∃ sc, ⟨path, sc, s⟩ ∈ p.scoped ∧ (∀ v ∈ p.scoped, v.path = path → v = ⟨path, sc, s⟩) ∧
      ∀ x, p.visibleDecl? path x = sc.buffer? x := by
  have hvisits : p.scoped.map (fun v => (v.path, v.stmt)) = p.body.visits := map_scopedFrom ..
  have hmem := mem_visits.2 hs
  rw [← hvisits] at hmem
  obtain ⟨⟨_, sc, _⟩, hv, ⟨⟩⟩ := List.mem_map.1 hmem
  refine ⟨sc, hv, fun w hw hpath => ?_, fun x => ?_⟩
  · -- the paths come in program order, so that no two are the same
    have hordered := walkFrom_ordered p.body [] 0
    rw [← visits, ← hvisits, List.map_map] at hordered
    exact List.inj_on_of_nodup_map (hordered.imp ne_of_lt) hw hv hpath
  · obtain ⟨j, rest, hpath, hfound⟩ := go_eq_buffer? hv
    rw [List.nil_append, Nat.zero_add] at hpath
    rw [visibleDecl?, ← buffer?_scope hnodup, ← hfound, hpath]

/-- A loop allocates a buffer under the name of a parameter. -/
def hidden : Proc where
  name := "hidden"
  params := [.buffer ⟨"x", .f32, [.int 1], .dram⟩]
  body := [.loop ⟨"i", .int 2, .seq⟩ [.alloc ⟨"x", .f64, [], .dram⟩, .store .set "x" [] (.int 0)],
    .store .set "x" [.int 0] (.int 0)]

/-- The name means the allocation inside of the loop, and the parameter behind it. -/
theorem Proc.hidden_declared : (hidden.params.map (·.name)).Nodup ∧
    (∃ sc, ⟨[0, 1], sc, .store .set "x" [] (.int 0)⟩ ∈ hidden.scoped ∧
      sc.buffer? "x" = some ⟨"x", .f64, [], .dram⟩) ∧
    ∃ sc, ⟨[1], sc, .store .set "x" [.int 0] (.int 0)⟩ ∈ hidden.scoped ∧
      sc.buffer? "x" = some ⟨"x", .f32, [.int 1], .dram⟩ := by
  have hnodup : (hidden.params.map (·.name)).Nodup := by decide
  obtain ⟨sc, hsc, -, hinner⟩ := visibleDecl?_eq_buffer? hnodup (rfl : hidden.stmt? [0, 1] = _)
  obtain ⟨sc', hsc', -, houter⟩ := visibleDecl?_eq_buffer? hnodup (rfl : hidden.stmt? [1] = _)
  exact ⟨hnodup, ⟨sc, hsc, (hinner "x").symm⟩, sc', hsc', (houter "x").symm⟩

end LoopNest
