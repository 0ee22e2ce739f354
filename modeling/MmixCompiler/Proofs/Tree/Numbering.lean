import MmixCompiler.Proofs.Tree.Parsing

/-! The numbers of nodes. A parser numbers the nodes that it makes one after the other, and a node when its parts have
been read. So the nodes of a program have the numbers from zero on, and what a parser reads next has the numbers that
follow. -/

namespace MmixCompiler

/-- All declarations, type expressions, statements and expressions of a program. -/
def Program.allNodes (p : Program) : List Node := p.levels.map Prod.snd

namespace Reader

/-- The reader is asked for an expression or for a program, and gives one with the nodes `ns`. -/
def Answers (s : Reader) (ns : List Node) (s' : Reader) : Prop :=
  (∃ e, Gives Parse.expr s e s' ∧ ns = (Node.expr e).nodes) ∨ ∃ p, Gives Parse.program s p s' ∧ ns = p.allNodes

inductive AnswersAll : Reader → List (List Node) → Reader → Prop where
  | nil {s} : AnswersAll s [] s
  | cons {s s₁ s' ns rest} (h : s.Answers ns s₁) (hrest : AnswersAll s₁ rest s') : AnswersAll s (ns :: rest) s'

end Reader

theorem Marked.eq_add {a b : Nat} {ns : List Node} (h : Marked a b ns) : b = a + ns.length := by
  have hlength := h.ids.length_eq
  rw [List.length_map, List.length_range'] at hlength
  rw [hlength, Nat.add_sub_cancel' h.le]

theorem Marked.ids_perm {a b : Nat} {ns : List Node} (h : Marked a b ns) :
    (ns.map Node.id).Perm (List.range' a ns.length) := by
  have hids := h.ids
  rwa [h.eq_add, Nat.add_sub_cancel_left] at hids

namespace Reader

variable {s s' : Reader}

theorem Answers.marked {ns : List Node} (h : s.Answers ns s') (hs : s.stream.Named) :
    s'.stream.Named ∧ Marked s.nextId s'.nextId ns := by
  obtain ⟨e, he, rfl⟩ | ⟨p, hp, rfl⟩ := h
  · exact (Parse.reads_expr _ s hs rfl).of_gives he
  · rw [Program.allNodes, ← p.declNodes_eq]
    exact ((Parse.reads_program _ s hs rfl).of_gives hp).imp_right And.left

theorem AnswersAll.ids_perm {answers : List (List Node)} (h : s.AnswersAll answers s') (hs : s.stream.Named) :
    s'.nextId = s.nextId + answers.flatten.length ∧ ∀ before ns after, answers = before ++ ns :: after →
      (ns.map Node.id).Perm (List.range' (s.nextId + before.flatten.length) ns.length) := by
  induction h with
  | nil => exact ⟨rfl, fun before ns after heq => by simp at heq⟩
  | cons h _ ih =>
    obtain ⟨hs₁, hmarked⟩ := h.marked hs
    obtain ⟨hnext, hrest⟩ := ih hs₁
    rw [hmarked.eq_add, Nat.add_assoc] at hnext
    refine ⟨by rw [hnext, List.flatten_cons, List.length_append], fun before ns after heq => ?_⟩
    cases before with
    | nil =>
      obtain ⟨rfl, -⟩ := List.cons.inj heq
      exact hmarked.ids_perm
    | cons ms before =>
      obtain ⟨rfl, htail⟩ := List.cons.inj heq
      have hids := hrest before ns after htail
      rwa [hmarked.eq_add, Nat.add_assoc, ← List.length_append, ← List.flatten_cons] at hids

end Reader

/-- The nodes of a program that is read have the numbers from zero on, each of them once, and every node has a greater
number than all below it. The answers that a reader gives one after the other have the numbers that follow each
other. -/
theorem parse_numbers_nodes (src : String) (scanner : Scanner) (s s' : Reader) (answers : List (List Node)) :
    (∀ p, (Program.parse src).1 = .ok p → (p.allNodes.map Node.id).Perm (List.range p.allNodes.length) ∧
      ∀ n ∈ p.allNodes, ∀ m ∈ n.below, m.id < n.id) ∧
    (s.stream = .ofScanner scanner → s.AnswersAll answers s' →
      s'.nextId = s.nextId + answers.flatten.length ∧ ∀ before ns after, answers = before ++ ns :: after →
        (ns.map Node.id).Perm (List.range' (s.nextId + before.flatten.length) ns.length)) := by
  refine ⟨fun p hp => ?_, fun hs h => h.ids_perm (hs ▸ Stream.named_ofScanner scanner)⟩
  obtain ⟨⟨n, hmarked⟩, -⟩ := Program.marked_parse hp
  rw [p.declNodes_eq] at hmarked
  exact ⟨List.range_eq_range' ▸ hmarked.ids_perm, hmarked.above⟩

/-- A function whose body is a product has seven nodes, and two expressions in a row have three and one. -/
theorem product_numbered :
    (∃ p, (Program.parse "fun f(a: int): int = a * 2;").1 = .ok p ∧ p.decls.map Decl.id = [6] ∧
      (p.allNodes.map Node.id).Perm [0, 1, 2, 3, 4, 5, 6]) ∧
    ∃ e₁ e₂ s₁ s₂, Gives Parse.expr (.ofString "1 + 2 x") e₁ s₁ ∧ Gives Parse.expr s₁ e₂ s₂ ∧
      ((Node.expr e₁).nodes.map Node.id).Perm [0, 1, 2] ∧ ((Node.expr e₂).nodes.map Node.id).Perm [3] := by
  constructor
  · have h : (Program.parse "fun f(a: int): int = a * 2;").1.toOption.map
        (fun p => ((declNodes p.decls).length, p.decls.map Decl.id)) = some (7, [6]) := by decide +kernel
    simp only [Option.map_eq_some_iff, toOption_eq_some, Prod.mk.injEq] at h
    obtain ⟨p, hp, hlength, hids⟩ := h
    have hnumbers := ((parse_numbers_nodes _ (.ofString "") (.ofString "") (.ofString "") []).1 p hp).1
    have hcount : p.allNodes.length = 7 := by rw [Program.allNodes, ← p.declNodes_eq, hlength]
    exact ⟨p, hp, hids, by rwa [hcount] at hnumbers⟩
  · have h : (outcome (do return ((Node.expr (← Parse.expr)).nodes.length, (Node.expr (← Parse.expr)).nodes.length))
        (.ofString "1 + 2 x")).1.toOption = some (3, 1) := by decide +kernel
    obtain ⟨s₂, h⟩ : ∃ s₂, Gives (do
        return ((Node.expr (← Parse.expr)).nodes.length, (Node.expr (← Parse.expr)).nodes.length))
        (.ofString "1 + 2 x") (3, 1) s₂ := ⟨_, Prod.ext (toOption_eq_some.mp h) rfl⟩
    simp only [gives_bind, gives_pure, Prod.mk.injEq] at h
    obtain ⟨e₁, s₁, h₁, e₂, s₂, h₂, ⟨hlength₁, hlength₂⟩, rfl⟩ := h
    have hanswers : Reader.AnswersAll (.ofString "1 + 2 x") [(Node.expr e₁).nodes, (Node.expr e₂).nodes] s₂ :=
      .cons (.inl ⟨e₁, h₁, rfl⟩) (.cons (.inl ⟨e₂, h₂, rfl⟩) .nil)
    have hnumbers := ((parse_numbers_nodes "" (.ofString "1 + 2 x") _ _ _).2 rfl hanswers).2
    have h₁' := hnumbers [] _ _ rfl
    have h₂' := hnumbers [_] _ _ rfl
    simp only [List.flatten_nil, List.flatten_cons, List.length_append, List.length_nil, hlength₁, hlength₂] at h₁' h₂'
    exact ⟨e₁, e₂, s₁, s₂, h₁, h₂, h₁', h₂'⟩

end MmixCompiler
