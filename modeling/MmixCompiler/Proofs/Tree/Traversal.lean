import MmixCompiler.Proofs.Tree.Bodies
import MmixCompiler.Proofs.Tree.Numbering

/-! Traversal of a program. A walk enters and leaves every node once, and between entering and leaving a node it does so
with all that is below the node and with nothing else. Without the bodies of functions it is what is left of the whole
walk when the events in them are taken out. A visitor that goes through the tree and may fail at any event is told of
the events of the walk, up to the one that it fails at. -/

namespace MmixCompiler

open List

/-- Whatever is entered is left, after all that was entered later. -/
inductive Bracketed : List Visit → Prop where
  | nil : Bracketed []
  | node {n inner rest} (hinner : Bracketed inner) (hrest : Bracketed rest) :
    Bracketed (.enter n :: (inner ++ .leave n :: rest))

namespace Bracketed

theorem append {vs ws : List Visit} (h : Bracketed vs) (h' : Bracketed ws) : Bracketed (vs ++ ws) := by
  induction h with
  | nil => exact h'
  | node hinner _ _ ih =>
    rw [cons_append, append_assoc, cons_append]
    exact .node hinner ih

theorem flatMap {α : Type} {xs : List α} {f : α → List Visit} (h : ∀ x ∈ xs, Bracketed (f x)) :
    Bracketed (xs.flatMap f) := by
  induction xs with
  | nil => exact .nil
  | cons x xs ih =>
    rw [flatMap_cons]
    exact (h x mem_cons_self).append (ih fun x hx => h x (mem_cons_of_mem _ hx))

end Bracketed

theorem Node.bracketed_walk (b : Bool) (n : Node) : Bracketed (n.walk b) := by
  rw [walk_eq b 0, around]
  refine .node (.flatMap fun q hq => ?_) .nil
  have := sizeOf_parts hq
  exact bracketed_walk b q.2
termination_by sizeOf n

/-- Each of the nodes is entered once, in this order, and left once. -/
structure Visits (vs : List Visit) (ns : List Node) : Prop where
  bracketed : Bracketed vs
  entered : entered vs = ns
  left : (left vs).Perm ns

theorem Node.visits_walk (n : Node) : Visits (n.walk true) n.nodes := ⟨n.bracketed_walk true, rfl, n.left_perm_nodes⟩

theorem Visits.flatMap {α : Type} {xs : List α} {f : α → List Visit} {g : α → List Node}
    (h : ∀ x ∈ xs, Visits (f x) (g x)) : Visits (xs.flatMap f) (xs.flatMap g) where
  bracketed := .flatMap fun x hx => (h x hx).bracketed
  entered := (entered_flatMap _ _).trans (flatMap_congr fun x hx => (h x hx).entered)
  left := (left_flatMap _ _).symm ▸ List.Perm.flatMap_left _ fun x hx => (h x hx).left

/-- The events between entering and leaving a node. -/
def Node.inside (n : Node) : List Visit := (n.parts true 0).flatMap fun q => q.2.walk true

/-- Whenever a node is entered, what is below it comes next, and then it is left. -/
def Nested (vs : List Visit) : Prop :=
  ∀ n after, .enter n :: after <:+ vs → ∃ rest, after = n.inside ++ .leave n :: rest

namespace Nested

theorem flatMap {α : Type} {xs : List α} {f : α → List Visit} {tail : List Visit}
    (h : ∀ x ∈ xs, ∀ tail, Nested tail → Nested (f x ++ tail)) (htail : Nested tail) :
    Nested (xs.flatMap f ++ tail) := by
  induction xs with
  | nil => exact htail
  | cons x xs ih =>
    rw [flatMap_cons, append_assoc]
    exact h x mem_cons_self _ (ih fun x hx => h x (mem_cons_of_mem _ hx))

theorem walk (n : Node) : ∀ {tail : List Visit}, Nested tail → Nested (n.walk true ++ tail) := by
  induction (0 : Nat), n using Node.induct with
  | h k n ih =>
    intro tail htail
    have hleave : Nested (.leave n :: tail) := fun m after hm =>
      (suffix_cons_iff.mp hm).elim (fun heq => by cases heq) (htail m after)
    have heq : n.walk true ++ tail = .enter n :: (n.inside ++ .leave n :: tail) := by
      rw [n.walk_eq true 0, Node.around, ← Node.inside]
      simp
    intro m after hm
    rw [heq] at hm
    rcases suffix_cons_iff.mp hm with hm | hm
    · cases hm
      exact ⟨tail, rfl⟩
    · refine flatMap (fun q hq tail htail => ?_) hleave m after hm
      obtain ⟨i, hi⟩ := Node.exists_mem_parts hq k
      exact ih (i, q.2) hi htail

end Nested

/-- The node is the body of the function that is entered last. -/
def Node.startsBody : List Node → Node → Bool
  | .decl (.function ..) :: _, .expr _ => true
  | _, _ => false

/-- The events that are not in the body of a function. The nodes `around` have been entered and not been left, and as
many nodes in a body as `depth` says. -/
def Visit.outsideBodies (around : List Node) : (depth : Nat) → List Visit → List Visit
  | _, [] => []
  | 0, .enter n :: vs =>
    if n.startsBody around then outsideBodies around 1 vs else .enter n :: outsideBodies (n :: around) 0 vs
  | 0, .leave n :: vs => .leave n :: outsideBodies around.tail 0 vs
  | depth + 1, .enter _ :: vs => outsideBodies around (depth + 2) vs
  | depth + 1, .leave _ :: vs => outsideBodies around depth vs

theorem Node.parts_false_eq (n : Node) (around : List Node) :
    n.parts false 0 = (n.parts true 0).filter fun q => !q.2.startsBody (n :: around) := by
  rcases n with d | t | s | e
  · cases d <;> simp [Node.parts, Node.startsBody, filter_map, Function.comp_def]
  · cases t <;> simp [Node.parts, Node.startsBody]
  · cases s <;> simp [Node.parts, Node.startsBody]
  · cases e <;> simp [Node.parts, Node.startsBody]

namespace Visit

theorem outsideBodies_of_bracketed (around : List Node) {ws : List Visit} (h : Bracketed ws) (depth : Nat)
    (vs : List Visit) :
    outsideBodies around (depth + 1) (ws ++ vs) = outsideBodies around (depth + 1) vs := by
  induction h generalizing depth vs with
  | nil => rfl
  | node _ _ ih ih' =>
    rw [cons_append, append_assoc, cons_append, outsideBodies, ih, outsideBodies, ih']

theorem outsideBodies_body {around : List Node} {n : Node} (h : n.startsBody around = true) (vs : List Visit) :
    outsideBodies around 0 (n.walk true ++ vs) = outsideBodies around 0 vs := by
  have hinner : Bracketed n.inside := .flatMap fun q _ => q.2.bracketed_walk true
  have hskip := outsideBodies_of_bracketed around hinner 0 (.leave n :: vs)
  rw [n.walk_eq true 0, Node.around, ← Node.inside, cons_append, append_assoc]
  simpa [outsideBodies, h] using hskip

theorem outsideBodies_flatMap (around : List Node) (qs : List (Nat × Node))
    (h : ∀ q ∈ qs, q.2.startsBody around = false → ∀ vs,
      outsideBodies around 0 (q.2.walk true ++ vs) = q.2.walk false ++ outsideBodies around 0 vs) (vs : List Visit) :
    outsideBodies around 0 (qs.flatMap (fun q => q.2.walk true) ++ vs) =
      (qs.filter fun q => !q.2.startsBody around).flatMap (fun q => q.2.walk false) ++ outsideBodies around 0 vs := by
  induction qs with
  | nil => rfl
  | cons q qs ih =>
    replace ih := ih fun q hq => h q (mem_cons_of_mem _ hq)
    rw [flatMap_cons, append_assoc]
    cases hq : q.2.startsBody around with
    | true => rw [outsideBodies_body hq, ih, filter_cons_of_neg (by simp [hq])]
    | false =>
      rw [h q mem_cons_self hq, ih, filter_cons_of_pos (by simp [hq]), flatMap_cons, append_assoc]

/-- What is outside of bodies is what a walk without the bodies visits. -/
theorem outsideBodies_walk (around : List Node) (n : Node) (hn : n.startsBody around = false) (vs : List Visit) :
    outsideBodies around 0 (n.walk true ++ vs) = n.walk false ++ outsideBodies around 0 vs := by
  have hparts := outsideBodies_flatMap (n :: around) (n.parts true 0) (fun q hq hstarts =>
      have := Node.sizeOf_parts hq
      outsideBodies_walk (n :: around) q.2 hstarts) (.leave n :: vs)
  rw [n.walk_eq true 0, n.walk_eq false 0, n.parts_false_eq around, Node.around, Node.around]
  simpa [outsideBodies, hn] using hparts
termination_by sizeOf n

end Visit

section
variable {ε σ : Type}

/-- A visitor goes through a tree. Where it fails, the traversal ends. -/
def Node.traverse (bodies : Bool) (visit : Visit → ExceptT ε (StateM σ) PUnit) (n : Node) :
    ExceptT ε (StateM σ) PUnit := do
  visit (.enter n)
  (n.parts bodies 0).attach.forM fun q =>
    have := sizeOf_parts q.2
    q.1.2.traverse bodies visit
  visit (.leave n)
termination_by sizeOf n

def Program.traverse (bodies : Bool) (visit : Visit → ExceptT ε (StateM σ) PUnit) (p : Program) :
    ExceptT ε (StateM σ) PUnit := p.decls.forM fun d => (Node.decl d).traverse bodies visit

/-- A visitor that notes every event that it is told of. -/
def Visit.recording (visit : Visit → ExceptT ε (StateM σ) PUnit) (v : Visit) :
    ExceptT ε (StateM (List Visit × σ)) PUnit :=
  ExceptT.mk fun s => ((outcome (visit v) s.2).1, s.1 ++ [v], (outcome (visit v) s.2).2)

variable {visit : Visit → ExceptT ε (StateM σ) PUnit}

theorem forM_append {α : Type} {xs ys : List α} {f : α → ExceptT ε (StateM σ) PUnit} :
    (xs ++ ys).forM f = xs.forM f >>= fun _ => ys.forM f := by
  simp only [forM_eq_forM, List.forM_append]

theorem forM_flatMap {α β : Type} {xs : List α} {f : α → List β} {g : β → ExceptT ε (StateM σ) PUnit} :
    (xs.flatMap f).forM g = xs.forM fun x => (f x).forM g := by
  induction xs with
  | nil => rfl
  | cons x xs ih =>
    rw [flatMap_cons, forM_append, ih]
    rfl

theorem Node.traverse_eq (bodies : Bool) (n : Node) : n.traverse bodies visit = (n.walk bodies).forM visit := by
  have hparts : ((n.parts bodies 0).attach.forM fun q => q.1.2.traverse bodies visit) =
      ((n.parts bodies 0).flatMap fun q => q.2.walk bodies).forM visit := by
    have htraverse : (fun q : { q // q ∈ n.parts bodies 0 } => q.1.2.traverse bodies visit) =
        fun q => (q.1.2.walk bodies).forM visit := funext fun q =>
      have := sizeOf_parts q.2
      traverse_eq bodies q.1.2
    conv_rhs => rw [← attach_map_subtype_val (n.parts bodies 0), flatMap_map, forM_flatMap]
    rw [htraverse]
  rw [traverse, n.walk_eq bodies 0, around]
  simp only [hparts]
  simp [forM_eq_forM]
termination_by sizeOf n

theorem Program.traverse_eq (bodies : Bool) (p : Program) :
    p.traverse bodies visit = (Decl.walkAll bodies p.decls).forM visit := by
  rw [traverse, Decl.walkAll_eq, forM_flatMap]
  exact congrArg _ (funext fun d => (Node.decl d).traverse_eq bodies)

namespace Visit

theorem outcome_recording (v : Visit) (ws : List Visit) (s : σ) :
    outcome (recording visit v) (ws, s) = ((outcome (visit v) s).1, ws ++ [v], (outcome (visit v) s).2) := rfl

/-- Events at which the visitor does not fail are noted one after the other. -/
theorem gives_recording {vs : List Visit} (ws : List Visit) {s s' : σ} (h : Gives (vs.forM visit) s ⟨⟩ s') :
    Gives (vs.forM (recording visit)) (ws, s) ⟨⟩ (ws ++ vs, s') := by
  induction vs generalizing ws s with
  | nil =>
    cases h
    rw [append_nil]
    rfl
  | cons v vs ih =>
    obtain ⟨_, s₁, hv, hvs⟩ := gives_bind.mp h
    refine gives_bind.mpr ⟨⟨⟩, (ws ++ [v], s₁), ?_, ?_⟩
    · rw [Gives, outcome_recording, show outcome (visit v) s = _ from hv]
    · rw [append_cons ws v vs]
      exact ih (ws ++ [v]) hvs

def stopAt (stop : NodeId) (v : Visit) : ExceptT Unit (StateM Unit) PUnit :=
  match v with
  | .enter n | .leave n => if n.id = stop then throw () else pure ()

theorem outcome_stopAt (stop : NodeId) (vs ws : List Visit) : outcome (vs.forM (recording (stopAt stop))) (ws, ()) =
    (if (Visit.until stop vs).2 then .error () else .ok ⟨⟩, ws ++ (Visit.until stop vs).1, ()) := by
  induction vs generalizing ws with
  | nil =>
    rw [Visit.until, append_nil]
    rfl
  | cons v vs ih =>
    refine (outcome_bind _ _ _).trans ?_
    rw [outcome_recording]
    cases v with
    | enter n | leave n =>
      by_cases h : n.id = stop
      · simp only [stopAt, Visit.until, if_pos h]
        rfl
      · simp only [stopAt, Visit.until, if_neg h]
        exact (ih _).trans (by rw [append_assoc]; rfl)

end Visit

/-- A program is visited as it should be. -/
structure Program.Traversed (p : Program) (visit : Visit → ExceptT ε (StateM σ) PUnit) : Prop where
  /-- Every node is entered and left once. -/
  once : Visits p.walk p.allNodes
  /-- Between entering and leaving a node, this is done with the nodes below it and with nothing else. -/
  inside : ∀ n after, .enter n :: after <:+ p.walk → ∃ inner rest, after = inner ++ .leave n :: rest ∧
    Visits inner n.below
  /-- The declarations of a block come before its statements, and these before its value. -/
  blocks : ∀ mark stmts value decls after, .enter (.expr (.block mark stmts value decls)) :: after <:+ p.walk →
    ∃ ds ss es rest, after = ds ++ (ss ++ (es ++ .leave (.expr (.block mark stmts value decls)) :: rest)) ∧
      Visits ds (declNodes decls) ∧ Visits ss (stmtNodes stmts) ∧ Visits es (Node.expr value).nodes
  bodies : Decl.walkAll false p.decls = Visit.outsideBodies [] 0 p.walk
  /-- A visitor that never fails is told of the whole walk. -/
  unfailing : (∀ v s, ∃ s', Gives (visit v) s ⟨⟩ s') → ∀ bodies s, ∃ s',
    Gives (p.traverse bodies (Visit.recording visit)) ([], s) ⟨⟩ (Decl.walkAll bodies p.decls, s')
  /-- A visitor that fails has been told of the walk up to the event that it fails at. -/
  failing : ∀ bodies before v after s s₁ e s₂, Decl.walkAll bodies p.decls = before ++ v :: after →
    Gives (before.forM visit) s ⟨⟩ s₁ → outcome (visit v) s₁ = (.error e, s₂) →
      outcome (p.traverse bodies (Visit.recording visit)) ([], s) = (.error e, before ++ [v], s₂)
  /-- What is told of before a node is met is the part of the walk up to there. -/
  stops : ∀ bodies stop, outcome (p.traverse bodies (Visit.recording (Visit.stopAt stop))) ([], ()) =
    (if (Visit.until stop (Decl.walkAll bodies p.decls)).2 then .error () else .ok ⟨⟩,
      (Visit.until stop (Decl.walkAll bodies p.decls)).1, ())

theorem exists_gives_forM (h : ∀ v s, ∃ s', Gives (visit v) s ⟨⟩ s') (vs : List Visit) (s : σ) :
    ∃ s', Gives (vs.forM visit) s ⟨⟩ s' := by
  induction vs generalizing s with
  | nil => exact ⟨s, rfl⟩
  | cons v vs ih =>
    obtain ⟨s₁, hv⟩ := h v s
    obtain ⟨s', hvs⟩ := ih s₁
    exact ⟨s', gives_bind.mpr ⟨⟨⟩, s₁, hv, hvs⟩⟩

theorem Program.nested_walk (p : Program) : Nested p.walk := by
  rw [walk, Decl.walkAll_eq, ← append_nil (p.decls.flatMap _)]
  exact .flatMap (fun d _ _ htail => .walk (.decl d) htail) fun n after h => by simp at h

theorem Program.visits_walk (p : Program) : Visits p.walk p.allNodes := by
  rw [Program.allNodes, ← declNodes_eq, walk, Decl.walkAll_eq]
  exact .flatMap fun d _ => (Node.decl d).visits_walk

/-- A traversal enters and leaves every node once, properly nested, and ends where its visitor fails. -/
theorem Program.walk_visits_once (p : Program) (visit : Visit → ExceptT ε (StateM σ) PUnit) : p.Traversed visit where
  once := p.visits_walk
  inside n after h := by
    obtain ⟨rest, rfl⟩ := p.nested_walk n after h
    exact ⟨n.inside, rest, rfl, .flatMap fun q _ => q.2.visits_walk⟩
  blocks mark stmts value decls after h := by
    obtain ⟨rest, rfl⟩ := p.nested_walk _ after h
    refine ⟨_, _, _, rest, ?_, .flatMap fun d _ => (Node.decl d).visits_walk,
      .flatMap fun s _ => (Node.stmt s).visits_walk, (Node.expr value).visits_walk⟩
    simp [Node.inside, Node.parts, flatMap_map]
  bodies := by
    have h := Visit.outsideBodies_flatMap [] (p.decls.map fun d => (0, .decl d))
      (fun q _ hq => Visit.outsideBodies_walk [] q.2 hq) []
    rw [walk, Decl.walkAll_eq, Decl.walkAll_eq]
    simpa [flatMap_map, filter_map, Function.comp_def, Node.startsBody, Node.walk, Visit.outsideBodies]
      using h.symm
  unfailing h bodies s := by
    obtain ⟨s', hs⟩ := exists_gives_forM h (Decl.walkAll bodies p.decls) s
    exact ⟨s', traverse_eq bodies p ▸ Visit.gives_recording [] hs⟩
  failing bodies before v after s s₁ e s₂ hwalk hbefore hv := by
    have hrecorded := Visit.gives_recording [] hbefore
    rw [traverse_eq, hwalk, forM_append, outcome_bind, show outcome _ _ = _ from hrecorded]
    refine (outcome_bind _ _ _).trans ?_
    rw [Visit.outcome_recording, hv]
    rfl
  stops bodies stop := by rw [traverse_eq, Visit.outcome_stopAt, nil_append]

end

end MmixCompiler
