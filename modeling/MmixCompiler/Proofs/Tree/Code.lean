import Mathlib.Logic.Relation
import MmixCompiler.Proofs.Tree.Parsing

/-! The nodes of a program that code is made from: those that are not part of a type. What holds at the
top and passes from nodes to their parts holds of every node. -/

namespace MmixCompiler

variable {n : Node} {k : Nat} {q : Nat × Node}

namespace Node

theorem sizeOf_nodes {m : Node} (h : m ∈ n.nodes) : sizeOf m ≤ sizeOf n := by
  induction (0 : Nat), n using induct with
  | h k n ih =>
    rw [nodes, entered_walk k, List.mem_map] at h
    obtain ⟨q, hq, rfl⟩ := h
    rcases mem_levels.mp hq with rfl | ⟨p, hp, hq⟩
    · exact Nat.le_refl _
    · refine Nat.le_trans (ih p hp ?_) (Nat.le_of_lt (sizeOf_parts hp))
      rw [nodes, entered_walk p.1]
      exact List.mem_map_of_mem hq

theorem nodes_subset_of_parts {m : Node} (hq : q ∈ n.parts true k) (hm : m ∈ q.2.nodes) : m ∈ n.nodes := by
  rw [nodes, entered_walk q.1, List.mem_map] at hm
  obtain ⟨r, hr, rfl⟩ := hm
  rw [nodes, entered_walk k]
  exact List.mem_map_of_mem (mem_levels.mpr (.inr ⟨q, hq, hr⟩))

theorem mem_nodes_self (n : Node) : n ∈ n.nodes := by
  rw [nodes_eq]
  exact List.mem_cons_self

theorem exists_mem_parts {b : Bool} {j : Nat} (hq : q ∈ n.parts b j) (k : Nat) : ∃ i, (i, q.2) ∈ n.parts b k := by
  have hparts : (n.parts b k).map Prod.snd = (n.parts b j).map Prod.snd := by
    cases n with
    | decl d => cases d <;> cases b <;> simp [parts]
    | type t => cases t <;> simp [parts]
    | stmt s => cases s <;> simp [parts, Function.comp_def]
    | expr e => cases e <;> simp [parts, Function.comp_def]
  obtain ⟨r, hr, heq⟩ := List.mem_map.mp (hparts ▸ List.mem_map_of_mem hq)
  exact ⟨r.1, heq ▸ hr⟩

theorem levels_sublist (h : q ∈ n.levels k) : (q.2.levels q.1).Sublist (n.levels k) := by
  induction k, n using induct with
  | h k n ih =>
    rcases mem_levels.mp h with rfl | ⟨p, hp, hq⟩
    · exact .refl _
    · rw [levels_eq k n]
      refine ((ih p hp hq).trans ?_).cons _
      exact List.sublist_flatten_of_mem (List.mem_map_of_mem hp)

def isType : Node → Bool
  | .type _ => true
  | _ => false

/-- A part of a node that is not a type, with the levels of both. -/
def Leads (q r : Nat × Node) : Prop := r ∈ q.2.parts true q.1 ∧ r.2.isType = false

end Node

/-- The numbers of the nodes in the given trees. -/
def idsOf (qs : List (Nat × Node)) : List NodeId := (qs.flatMap fun q => q.2.nodes).map Node.id

theorem idsOf_append (qs rs : List (Nat × Node)) : idsOf (qs ++ rs) = idsOf qs ++ idsOf rs := by simp [idsOf]

theorem nodup_idsOf_append {qs rs : List (Nat × Node)} (h : (idsOf (qs ++ rs)).Nodup) :
    (idsOf qs).Nodup ∧ (idsOf rs).Nodup ∧ ∀ id ∈ idsOf qs, id ∉ idsOf rs := by
  obtain ⟨hqs, hrs, hne⟩ := List.nodup_append.mp (idsOf_append qs rs ▸ h)
  exact ⟨hqs, hrs, fun id hid hid' => hne id hid id hid' rfl⟩

theorem nodup_idsOf_tail {q : Nat × Node} {qs : List (Nat × Node)} (h : (idsOf (q :: qs)).Nodup) :
    (idsOf qs).Nodup :=
  (@nodup_idsOf_append [q] qs h).2.1

theorem idsOf_singleton (k j : Nat) (n : Node) : idsOf [(k, n)] = n.id :: idsOf (n.parts true j) := by
  rw [idsOf, List.flatMap_singleton, Node.nodes, Node.walk_eq true j, entered_around, entered_flatMap]
  rfl

theorem id_mem_idsOf (k : Nat) (n : Node) : n.id ∈ idsOf [(k, n)] := by
  rw [idsOf_singleton k 0]
  exact List.mem_cons_self

namespace Program

def Has (p : Program) (n : Node) : Prop := ∃ k, (k, n) ∈ p.levels

theorem levels_induct {p : Program} {P : Nat → Node → Prop} (htop : ∀ d ∈ p.decls, P 0 (.decl d))
    (hpart : ∀ k n, (k, n) ∈ p.levels → P k n → ∀ q ∈ n.parts true k, P q.1 q.2) (hq : q ∈ p.levels) : P q.1 q.2 := by
  have hbelow : ∀ k n, (k, n) ∈ p.levels → P k n → ∀ q ∈ n.levels k, P q.1 q.2 := fun k n => by
    induction k, n using Node.induct with
    | h k n ih =>
      intro hn h q hq
      rcases Node.mem_levels.mp hq with rfl | ⟨r, hr, hq⟩
      · exact h
      · exact ih r hr (parts_subset hn hr) (hpart k n hn h r hr) q hq
  obtain ⟨d, hd, hq⟩ := List.mem_flatMap.mp hq
  exact hbelow 0 (.decl d) (mem_levels_decl hd) (htop d hd) q hq

/-- The program has the node outside of types, at that level. -/
def InCode (p : Program) (q : Nat × Node) : Prop :=
  ∃ d ∈ p.decls, Relation.ReflTransGen Node.Leads (0, .decl d) q

variable {p : Program}

theorem InCode.part {r : Nat × Node} (h : p.InCode q) (hr : r ∈ q.2.parts true q.1)
    (htype : r.2.isType = false) : p.InCode r := by
  obtain ⟨d, hd, hq⟩ := h
  exact ⟨d, hd, hq.tail ⟨hr, htype⟩⟩

theorem InCode.mem_levels (h : p.InCode q) : q ∈ p.levels := by
  obtain ⟨d, hd, hq⟩ := h
  induction hq with
  | refl => exact mem_levels_decl hd
  | tail _ hr ih => exact parts_subset ih hr.1

theorem InCode.has (h : p.InCode (k, n)) : p.Has n := ⟨k, h.mem_levels⟩

theorem Has.part (h : p.Has n) (hq : q ∈ n.parts true k) : p.Has q.2 := by
  obtain ⟨j, hj⟩ := h
  obtain ⟨i, hi⟩ := Node.exists_mem_parts hq j
  exact ⟨i, parts_subset hj hi⟩

theorem mem_allDecls {d : Decl} : d ∈ p.allDecls ↔ p.Has (.decl d) := by
  rw [Has, ← enter_mem_walk, allDecls, List.mem_filterMap]
  constructor
  · rintro ⟨v, hv, h⟩
    split at h
    · cases h
      exact hv
    · cases h
  · exact fun h => ⟨_, h, rfl⟩

theorem Has.of_nodes {m : Node} (h : p.Has n) (hm : m ∈ n.nodes) : p.Has m := by
  obtain ⟨k, hk⟩ := h
  obtain ⟨d, hd, hk⟩ := List.mem_flatMap.mp hk
  rw [Node.nodes, Node.entered_walk k, List.mem_map] at hm
  obtain ⟨q, hq, rfl⟩ := hm
  exact ⟨q.1, List.mem_flatMap.mpr ⟨d, hd, Node.levels_subset hk hq⟩⟩

theorem Numbered.eq_of_id (hp : p.Numbered) {m : Node} (hn : p.Has n) (hm : p.Has m) (h : n.id = m.id) : n = m := by
  obtain ⟨j, hj⟩ := hn
  obtain ⟨k, hk⟩ := hm
  exact congrArg Prod.snd (hp.eq hj hk h)

theorem Numbered.id_ne_of_parts (hp : p.Numbered) {m : Node} (hn : p.Has n) (hq : q ∈ n.parts true k)
    (hm : m ∈ q.2.nodes) : m.id ≠ n.id := by
  intro heq
  have hmn := hp.eq_of_id ((hn.part hq).of_nodes hm) hn heq
  have hlt := Node.sizeOf_parts hq
  have hle := Node.sizeOf_nodes hm
  rw [hmn] at hle
  omega

theorem Numbered.nodup_parts (hp : p.Numbered) (hn : p.Has n) (k : Nat) : (n.id :: idsOf (n.parts true k)).Nodup := by
  obtain ⟨j, hj⟩ := hn
  obtain ⟨d, hd, hj⟩ := List.mem_flatMap.mp hj
  have hsub : (n.levels j).Sublist p.levels :=
    (Node.levels_sublist hj).trans (List.sublist_flatten_of_mem (List.mem_map_of_mem hd))
  have hnodup : ((n.levels j).map fun q => q.2.id).Nodup := (hsub.map _).nodup hp
  have hids : (n.levels j).map (fun q => q.2.id) = n.id :: idsOf (n.parts true k) := by
    rw [← Function.comp_def, ← List.map_map, ← Node.entered_walk j n, Node.walk_eq true k, entered_around,
      entered_flatMap]
    rfl
  exact hids ▸ hnodup

theorem Numbered.nodup_decls (hp : p.Numbered) : (idsOf (p.decls.map fun d => (0, .decl d))).Nodup := by
  have hnodes : (p.decls.map fun d => (0, Node.decl d)).flatMap (fun q => q.2.nodes) = p.levels.map Prod.snd := by
    rw [← p.entered_walk, walk, Decl.walkAll_eq, entered_flatMap, List.flatMap_map]
    rfl
  rw [idsOf, hnodes, List.map_map]
  exact hp

end Program
end MmixCompiler
