import Mathlib.Data.List.Perm.Basic
import MmixCompiler.Frame.Layout
import MmixCompiler.Proofs.Tree.Code

/-! The functions of a program that have a body, in the order in which a walk leaves them. Every one is there once,
and a function in the body of another comes before it. -/

namespace MmixCompiler

def left (vs : List Visit) : List Node :=
  vs.filterMap fun
    | .enter _ => none
    | .leave n => some n

theorem mem_left {vs : List Visit} {n : Node} : n ∈ left vs ↔ .leave n ∈ vs := by
  simp only [left, List.mem_filterMap]
  constructor
  · rintro ⟨m | m, hm, h⟩
    · cases h
    · cases h
      exact hm
  · exact fun h => ⟨_, h, rfl⟩

theorem left_flatMap {α : Type} (f : α → List Visit) (xs : List α) :
    left (xs.flatMap f) = xs.flatMap fun x => left (f x) := by
  induction xs with
  | nil => rfl
  | cons x xs ih =>
    rw [List.flatMap_cons, List.flatMap_cons, ← ih]
    exact List.filterMap_append

namespace Node

theorem left_walk (k : Nat) (n : Node) :
    left (n.walk true) = ((n.parts true k).flatMap fun q => left (q.2.walk true)) ++ [n] := by
  rw [walk_eq true k, around, ← left_flatMap]
  simp [left, List.filterMap_append]

theorem left_perm_nodes (n : Node) : (left (n.walk true)).Perm n.nodes := by
  induction (0 : Nat), n using induct with
  | h k n ih =>
    rw [left_walk k, nodes, walk_eq true k, entered_around, entered_flatMap]
    refine List.perm_append_comm.trans (.cons _ ?_)
    exact List.Perm.flatMap_left _ fun q hq => ih q hq

theorem left_sublist {k : Nat} {n : Node} {q : Nat × Node} (h : q ∈ n.levels k) :
    (left (q.2.walk true)).Sublist (left (n.walk true)) := by
  induction k, n using induct with
  | h k n ih =>
    rcases mem_levels.mp h with rfl | ⟨r, hr, hq⟩
    · exact .refl _
    · rw [left_walk k n]
      refine List.Sublist.trans (ih r hr hq) (List.Sublist.trans ?_ (List.sublist_append_left _ _))
      exact List.sublist_flatten_of_mem (List.mem_map_of_mem hr)

/-- A node is left after every other node of its tree. -/
theorem pair_sublist_left {n m : Node} (hm : m ∈ n.nodes) (hne : m ≠ n) : [m, n].Sublist (left (n.walk true)) := by
  have hleft := (left_perm_nodes n).symm.subset hm
  rw [left_walk 0] at hleft ⊢
  rcases List.mem_append.mp hleft with hleft | hleft
  · exact (List.singleton_sublist.mpr hleft).append (.refl [n])
  · exact absurd (List.mem_singleton.mp hleft) hne

end Node

/-- The body of a node that declares a function. -/
def Node.body? : Node → Option (Decl × Expr)
  | .decl d@(.function _ _ _ _ body) => some (d, body)
  | _ => none

theorem Node.body?_eq_some {n : Node} {d : Decl} {body : Expr} :
    n.body? = some (d, body) ↔ n = .decl d ∧ d.body? = some body := by
  cases n with
  | decl e =>
    cases e with
    | function =>
      simp only [Node.body?, Option.some.injEq, Prod.mk.injEq, Node.decl.injEq]
      constructor
      · rintro ⟨rfl, rfl⟩
        exact ⟨rfl, rfl⟩
      · rintro ⟨rfl, hbody⟩
        exact ⟨rfl, Option.some.inj hbody⟩
    | typed | proto =>
      simp only [Node.body?, Node.decl.injEq, reduceCtorEq, false_iff, not_and]
      rintro rfl hbody
      cases hbody
  | type | stmt | expr => simp [Node.body?]

namespace Program

variable {p : Program}

theorem bodies_eq (p : Program) : p.bodies = (left p.walk).filterMap Node.body? := by
  rw [bodies, left, List.filterMap_filterMap]
  refine List.filterMap_congr fun v _ => ?_
  cases v with
  | enter n => rfl
  | leave n =>
    cases n with
    | decl d => cases d <;> rfl
    | type | stmt | expr => rfl

theorem left_walk_eq (p : Program) : left p.walk = p.decls.flatMap fun d => left ((Node.decl d).walk true) := by
  rw [walk, Decl.walkAll_eq, left_flatMap]
  rfl

theorem mem_bodies {d : Decl} {body : Expr} : (d, body) ∈ p.bodies ↔ p.Has (.decl d) ∧ d.body? = some body := by
  simp only [bodies_eq, List.mem_filterMap, Node.body?_eq_some, mem_left, leave_mem_walk]
  constructor
  · rintro ⟨n, hn, rfl, hbody⟩
    exact ⟨hn, hbody⟩
  · rintro ⟨hd, hbody⟩
    exact ⟨_, hd, rfl, hbody⟩

theorem has_body {d : Decl × Expr} (hd : d ∈ p.bodies) : p.Has (.expr d.2) := by
  obtain ⟨d, body⟩ := d
  obtain ⟨hhas, hbody⟩ := mem_bodies.mp hd
  cases d with
  | typed | proto => cases hbody
  | function =>
    cases hbody
    exact hhas.part (k := 0) (q := (1, .expr body)) (by simp [Node.parts])

theorem Numbered.nodup_bodies (hp : p.Numbered) : (p.bodies.map fun d => d.1.id).Nodup := by
  have hleft : ((left p.walk).map Node.id).Nodup := by
    rw [left_walk_eq]
    have hperm : (p.decls.flatMap fun d => left ((Node.decl d).walk true)).Perm
        (p.decls.flatMap fun d => (Node.decl d).nodes) :=
      List.Perm.flatMap_left _ fun d _ => Node.left_perm_nodes (.decl d)
    have hnodes : (p.decls.flatMap fun d => (Node.decl d).nodes) = p.levels.map Prod.snd := by
      rw [← p.entered_walk, walk, Decl.walkAll_eq, entered_flatMap]
      rfl
    rw [hnodes] at hperm
    refine (hperm.map Node.id).nodup_iff.mpr ?_
    rw [List.map_map]
    exact hp
  refine List.Sublist.nodup ?_ hleft
  rw [bodies_eq]
  induction left p.walk with
  | nil => exact .refl _
  | cons n ns ih =>
    rw [List.filterMap_cons]
    split
    · exact ih.cons _
    · next d heq =>
      obtain ⟨rfl, -⟩ := Node.body?_eq_some.mp heq
      exact ih.cons_cons _

theorem pair_sublist_bodies {d e : Decl} {body inner : Expr} (hd : p.Has (.decl d)) (hbody : d.body? = some body)
    (he : .decl e ∈ (Node.decl d).nodes) (hne : e ≠ d) (hinner : e.body? = some inner) :
    [(e, inner), (d, body)].Sublist p.bodies := by
  have hpair := Node.pair_sublist_left he fun heq => hne (Node.decl.inj heq)
  obtain ⟨k, hk⟩ := hd
  obtain ⟨top, htop, hk⟩ := List.mem_flatMap.mp hk
  have hsub : (left ((Node.decl d).walk true)).Sublist (left p.walk) := by
    rw [left_walk_eq]
    refine (Node.left_sublist hk).trans ?_
    exact List.sublist_flatten_of_mem (List.mem_map_of_mem htop)
  rw [bodies_eq]
  have hfilter := (hpair.trans hsub).filterMap Node.body?
  simpa [List.filterMap_cons, Node.body?_eq_some.mpr ⟨rfl, hinner⟩, Node.body?_eq_some.mpr ⟨rfl, hbody⟩] using hfilter

end Program

end MmixCompiler
