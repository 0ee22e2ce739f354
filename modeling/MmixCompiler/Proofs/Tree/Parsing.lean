import Mathlib.Data.List.TakeWhile
import MmixCompiler.Proofs.Run
import MmixCompiler.Proofs.Tree.Nodes
import MmixCompiler.Tree.Parser

/-! The trees that parsing gives: every node has a number of its own, declarations stand only where
their role belongs, and names are made of letters, digits and underscores. -/

namespace MmixCompiler

/-- A name of letters, digits and underscores. -/
def PlainName (name : String) : Prop := ∀ c ∈ name.toList, Token.isNamePart c

/-- A name that begins with no digit and is not reserved. -/
structure Identifier (name : String) : Prop where
  start : ∃ c cs, name.toList = c :: cs ∧ Token.isNameStart c
  plain : PlainName name
  free : Keyword.ofText? name = none

namespace Token

section
variable {name : String} {c : Char} {cs : List Char}

theorem identifier_of_scanName (hc : isNameStart c) (h : (scanName (c :: cs)).outcome = .ok (.ident name)) :
    Identifier name := by
  simp only [scanName] at h
  split at h
  · cases h
  · next hfree =>
    obtain rfl : String.ofList ((c :: cs).takeWhile isNamePart) = name := by simpa using h
    refine ⟨⟨c, cs.takeWhile isNamePart, ?_, hc⟩, fun d hd => ?_, hfree⟩
    · rw [String.toList_ofList, List.takeWhile_cons_of_pos (by simp [isNamePart, hc])]
    · rw [String.toList_ofList] at hd
      exact List.mem_takeWhile_imp hd

theorem scanDigits_ne_ident {value : Nat} : (scanDigits value cs).outcome ≠ .ok (.ident name) := by
  fun_induction scanDigits value cs <;> simp_all +zetaDelta

theorem scanString_ne_ident {value : List Char} : (scanString value cs).outcome ≠ .ok (.ident name) := by
  fun_induction scanString value cs <;> simp_all +zetaDelta

theorem scanClosing_ne_ident {taken : List Char} : (scanClosing taken c cs).outcome ≠ .ok (.ident name) := by
  fun_cases scanClosing taken c cs <;> simp

theorem scanCharacter_ne_ident : (scanCharacter cs).outcome ≠ .ok (.ident name) := by
  fun_cases scanCharacter cs <;> simp [scanClosing_ne_ident]

theorem scanRelation_ne_ident : (scanRelation c cs).outcome ≠ .ok (.ident name) := by
  unfold scanRelation
  split
  · dsimp only
    split_ifs <;> simp
  · simp

theorem identifier_of_scan (h : (scan cs).outcome = .ok (.ident name)) : Identifier name := by
  unfold scan at h
  split at h
  · cases h
  · split_ifs at h with hdigit hname
    · exact absurd h scanDigits_ne_ident
    · exact identifier_of_scanName hname h
    · exact absurd h scanRelation_ne_ident
    · exact absurd h scanCharacter_ne_ident
    · exact absurd h scanString_ne_ident
    · cases h

end
end Token

/-- If the token is a name, it is one that is not reserved. -/
def Token.Named (t : Token) : Prop := ∀ name, t.kind = .ident name → Identifier name

def Lexeme.Named (l : Lexeme) : Prop := ∀ t, l.outcome = .ok t → t.Named

def Stream.Named (s : Stream) : Prop := s.last.Named ∧ ∀ l ∈ s.ahead, l.Named

theorem Scanner.named_advance (s : Scanner) : s.advance.1.Named := by
  intro t ht name hname
  simp only [Scanner.advance] at ht
  split at ht
  · next kind hkind =>
    cases ht
    exact Token.identifier_of_scan (hkind.trans (congrArg _ hname))
  · cases ht

theorem Stream.named_ofScanner (s : Scanner) : (Stream.ofScanner s).Named := by
  fun_induction Stream.ofScanner s with
  | case1 s r h t ih =>
    refine ⟨ih.1, List.forall_mem_cons.mpr ⟨s.named_advance, ih.2⟩⟩
  | case2 s r h => exact ⟨s.named_advance, by simp⟩

theorem Stream.Named.head {s : Stream} (h : s.Named) : s.head.Named := by
  unfold Stream.head
  rcases hs : s.ahead with _ | ⟨l, ls⟩
  · exact h.1
  · exact h.2 l (hs ▸ List.mem_cons_self)

theorem Stream.Named.tail {s : Stream} (h : s.Named) : s.tail.Named :=
  ⟨h.1, fun l hl => h.2 l (List.mem_of_mem_tail hl)⟩

/-- What a parser gives, begun with the number `n` for the next node, and the number it leaves for the
next node. -/
def Reads {α : Type} (x : Parse α) (n : NodeId) (post : α → NodeId → Prop) : Prop :=
  ∀ s : Reader, s.stream.Named → s.nextId = n →
    Meets x s (fun a s' => s'.stream.Named ∧ post a s'.nextId) fun _ => True

namespace Reads

variable {α β : Type} {n : NodeId} {post : α → NodeId → Prop}

theorem bind {x : Parse β} {f : β → Parse α} {mid : β → NodeId → Prop} (hx : Reads x n mid)
    (hf : ∀ b m, mid b m → Reads (f b) m post) : Reads (x >>= f) n post := by
  intro s hs hn
  exact (hx s hs hn).bind fun b s' hb => hf b s'.nextId hb.2 s' hb.1 rfl

theorem mono {x : Parse α} {post' : α → NodeId → Prop} (h : Reads x n post)
    (hpost : ∀ a m, post a m → post' a m) : Reads x n post' := fun s hs hn =>
  (h s hs hn).mono fun a s' ha => ha.imp_right (hpost a s'.nextId)

theorem pure {a : α} (h : post a n) : Reads (pure a) n post := fun _ hs hn =>
  ⟨hs, hn ▸ h⟩

theorem reject {t : Token} {expected : Expected} : Reads (Parse.reject t expected : Parse α) n post :=
  fun _ _ _ => trivial

theorem ofLexeme_bind {l : Lexeme} {f : Token → Parse α} (hl : l.Named)
    (h : ∀ t : Token, t.Named → Reads (f t) n post) :
    Reads (Parse.ofLexeme l >>= f) n post := by
  unfold Parse.ofLexeme
  split
  · next t ht => exact h t (hl t ht)
  · exact fun _ _ _ => trivial

theorem peek_bind {f : Token → Parse α} (h : ∀ t : Token, t.Named → Reads (f t) n post) :
    Reads (Parse.peek >>= f) n post :=
  fun s hs hn => ofLexeme_bind hs.head h { s with seen := s.stream.head.stop } hs hn

theorem next_bind {f : Token → Parse α} (h : ∀ t : Token, t.Named → Reads (f t) n post) :
    Reads (Parse.next >>= f) n post :=
  fun s hs hn => ofLexeme_bind hs.head h { s with stream := s.stream.tail, seen := s.stream.head.stop } hs.tail hn

theorem sees_bind {kind : Token.Kind} {f : Bool → Parse α} (h : ∀ b, Reads (f b) n post) :
    Reads (Parse.sees kind >>= f) n post := by
  rw [Parse.sees, bind_assoc]
  exact peek_bind fun t _ => h _

theorem expect_bind {kind : Token.Kind} {expected : Expected} {f : Unit → Parse α} (h : Reads (f ()) n post) :
    Reads (Parse.expect kind expected >>= f) n post := by
  rw [Parse.expect, bind_assoc]
  refine next_bind fun t _ => ?_
  split
  · exact h
  · exact reject

theorem symbol_bind {c : Char} {f : Unit → Parse α} (h : Reads (f ()) n post) : Reads (Parse.symbol c >>= f) n post :=
  expect_bind h

theorem word_bind {w : Keyword} {f : Unit → Parse α} (h : Reads (f ()) n post) : Reads (Parse.word w >>= f) n post :=
  expect_bind h

theorem identifier_bind {f : String → Parse α} (h : ∀ name, Identifier name → Reads (f name) n post) :
    Reads (Parse.identifier >>= f) n post := by
  rw [Parse.identifier, bind_assoc]
  refine next_bind fun t ht => ?_
  split
  · next name hname => exact h name (ht name hname)
  · exact reject

theorem enter_bind {rule : Rule} {f : Unit → Parse α} (h : Reads (f ()) n post) :
    Reads (Parse.enter rule >>= f) n post :=
  fun s hs hn => h { s with trail := (rule, s.seen) :: s.trail } hs hn

theorem mark_bind {position : Position} {f : Mark → Parse α} (h : ∀ k : Mark, k.id = n → Reads (f k) (n + 1) post) :
    Reads (Parse.mark position >>= f) n post := by
  have hmark : Reads (Parse.mark position) n fun k m => k.id = n ∧ n + 1 = m := fun _ hs hn =>
    ⟨hs, hn, congrArg (· + 1) hn.symm⟩
  exact hmark.bind fun k m hk => hk.2 ▸ h k hk.1

theorem repeatUpTo {step : α → Parse (Option α)}
    (hstep : ∀ a m, post a m → Reads (step a) m fun b k => post (b.getD a) k) (bound : Nat) {a : α} {m : NodeId}
    (h : post a m) : Reads (Parse.repeatUpTo step bound a) m post := by
  induction bound generalizing a m with
  | zero => exact pure h
  | succ bound ih =>
    refine (hstep a m h).bind fun b k hb => ?_
    cases b with
    | none => exact pure hb
    | some b => exact ih hb

theorem iterate (post : α → NodeId → Prop) {step : α → Parse (Option α)} {a : α} {m : NodeId} (h : post a m)
    (hstep : ∀ a m, post a m → Reads (step a) m fun b k => post (b.getD a) k) : Reads (Parse.iterate step a) m post :=
  fun s hs hn => repeatUpTo hstep _ h s hs hn

end Reads

/-- A declaration as a scope has them. -/
def Decl.Declared : Decl → Prop
  | .typed _ role _ _ => role = .variable ∨ role = .type
  | .proto .. | .function .. => True

def Decl.HasRole (role : Role) : Decl → Prop
  | .typed _ r _ _ => r = role
  | .proto .. | .function .. => False

theorem Decl.HasRole.declared {role : Role} {d : Decl} (h : d.HasRole role)
    (hrole : role = .variable ∨ role = .type) : d.Declared := by
  cases d with
  | typed => exact h ▸ hrole
  | proto => trivial
  | function => trivial

/-- Declarations in the node stand where their role belongs, and its name is not reserved. -/
def Node.Formed : Node → Prop
  | .decl (.typed _ _ name _) => Identifier name
  | .decl (.proto _ name params _) | .decl (.function _ name params _ _) =>
    Identifier name ∧ ∀ d ∈ params, d.HasRole .parameter
  | .type (.record _ components) => components ≠ [] ∧ ∀ d ∈ components, d.HasRole .component
  | .expr (.block _ _ _ decls) => ∀ d ∈ decls, d.Declared
  | _ => True

def Node.nodes (n : Node) : List Node := entered (n.walk true)

/-- The parts of a node, their parts, and so on. -/
def Node.below (n : Node) : List Node := (n.parts true 0).flatMap fun q => q.2.nodes

theorem Node.nodes_eq (n : Node) : n.nodes = n :: (n.parts true 0).flatMap fun q => q.2.nodes := by
  rw [Node.nodes, Node.walk_eq true 0, entered_around, entered_flatMap]
  rfl

def exprNodes (es : List Expr) : List Node := es.flatMap fun e => (Node.expr e).nodes
def stmtNodes (ss : List Stmt) : List Node := ss.flatMap fun s => (Node.stmt s).nodes
def declNodes (ds : List Decl) : List Node := ds.flatMap fun d => (Node.decl d).nodes

/-- Nodes that have the numbers from `a` to `b`, each a greater one than all below it, and are formed as they have
to be. -/
structure Marked (a b : Nat) (ns : List Node) : Prop where
  le : a ≤ b
  ids : (ns.map Node.id).Perm (List.range' a (b - a))
  above : ∀ n ∈ ns, ∀ m ∈ n.below, m.id < n.id
  formed : ∀ n ∈ ns, n.Formed

namespace Marked

variable {a b c : Nat} {ns ms : List Node}

theorem nil : Marked a a [] := ⟨Nat.le_refl _, by simp, by simp, by simp⟩

theorem perm (h : Marked a b ns) (hperm : ns.Perm ms) : Marked a b ms :=
  ⟨h.le, (hperm.map _).symm.trans h.ids, fun n hn => h.above n (hperm.mem_iff.mpr hn),
    fun n hn => h.formed n (hperm.mem_iff.mpr hn)⟩

theorem append (h : Marked a b ns) (h' : Marked b c ms) : Marked a c (ns ++ ms) := by
  refine ⟨Nat.le_trans h.le h'.le, ?_, List.forall_mem_append.mpr ⟨h.above, h'.above⟩,
    List.forall_mem_append.mpr ⟨h.formed, h'.formed⟩⟩
  have hrange : List.range' a (c - a) = List.range' a (b - a) ++ List.range' b (c - b) := by
    rw [← Nat.sub_add_sub_cancel h'.le h.le, Nat.add_comm, ← List.range'_append_1, Nat.add_sub_cancel' h.le]
  rw [List.map_append, hrange]
  exact h.ids.append h'.ids

/-- A node is marked after its parts. -/
theorem node {n : Node} (h : Marked a b n.below) (hid : n.id = b) (hformed : n.Formed) :
    Marked a (b + 1) n.nodes := by
  rw [Node.nodes_eq, ← Node.below]
  refine ⟨Nat.le_succ_of_le h.le, ?_, List.forall_mem_cons.mpr ⟨fun m hm => ?_, h.above⟩,
    List.forall_mem_cons.mpr ⟨hformed, h.formed⟩⟩
  · rw [List.map_cons, hid, Nat.succ_sub h.le, List.range'_1_concat, Nat.add_sub_cancel' h.le]
    exact (h.ids.cons b).trans (List.perm_append_singleton _ _).symm
  · obtain ⟨-, hlt⟩ := List.mem_range'_1.mp (h.ids.subset (List.mem_map_of_mem hm))
    rwa [Nat.add_sub_cancel' h.le, ← hid] at hlt

end Marked

namespace Grammar

/-- A parser of expressions with well-formed nodes. -/
def ReadsExpr (x : Parse Expr) : Prop := ∀ n, Reads x n fun e m => Marked n m (Node.expr e).nodes

structure Good (g : Grammar) : Prop where
  factor : ReadsExpr g.factor
  expr : ReadsExpr g.expr
  type : ∀ n, Reads g.type n fun t m => Marked n m (Node.type t).nodes
  stmts : ∀ n, Reads g.stmts n fun ss m => Marked n m (stmtNodes ss)
  decls : ∀ n, Reads g.decls n fun ds m => Marked n m (declNodes ds) ∧ ∀ d ∈ ds, d.Declared

open Reads

attribute [local simp] Node.below Node.parts exprNodes stmtNodes declNodes List.flatMap_map

theorem reads_node {α : Type} {wrap : α → Node} {make : Mark → α} {position : Position} {a n : Nat}
    (hmake : ∀ k, (wrap (make k)).id = k.id ∧ (wrap (make k)).Formed) (h : ∀ k, Marked a n (wrap (make k)).below) :
    Reads (do return make (← Parse.mark position)) n fun x m => Marked a m (wrap x).nodes :=
  mark_bind fun k hk => .pure ((h k).node ((hmake k).1.trans hk) (hmake k).2)

theorem reads_leftAssoc {operand : Parse Expr} (h : ReadsExpr operand)
    (op : Token.Kind → Option BinaryOp) : ReadsExpr (leftAssoc operand op) := fun n => by
  refine (h n).bind fun first m hfirst => iterate _ hfirst fun lhs m hlhs => peek_bind fun t _ => ?_
  split
  · exact .pure hlhs
  · refine next_bind fun t _ => (h m).bind fun rhs k hrhs => ?_
    exact reads_node (fun _ => ⟨rfl, trivial⟩) fun _ => by simpa using hlhs.append hrhs

theorem reads_comparison {factor : Parse Expr} (h : ReadsExpr factor) : ReadsExpr (comparison factor) := fun n => by
  have hsum : ReadsExpr (sum factor) := reads_leftAssoc (reads_leftAssoc h _) _
  refine (hsum n).bind fun lhs m hlhs => peek_bind fun t _ => ?_
  split
  · exact .pure hlhs
  · refine next_bind fun t _ => (hsum m).bind fun rhs k hrhs => ?_
    exact reads_node (fun _ => ⟨rfl, trivial⟩) fun _ => by simpa using hlhs.append hrhs

theorem reads_exprRule {factor : Parse Expr} (h : ReadsExpr factor) : ReadsExpr (exprRule factor) :=
  fun n => enter_bind (reads_leftAssoc (reads_leftAssoc (reads_comparison h) _) _ n)

theorem reads_typedName {role : Role} {type : Parse TypeExpr} {at_ : Position}
    (h : ∀ n, Reads type n fun t m => Marked n m (Node.type t).nodes) (n : NodeId) :
    Reads (typedName role type at_) n fun d m => Marked n m (Node.decl d).nodes ∧ d.HasRole role := by
  refine identifier_bind fun name hname => symbol_bind ((h n).bind fun t k ht => mark_bind fun mk hid => ?_)
  exact .pure ⟨.node (by simpa using ht) hid hname, rfl⟩

theorem reads_typedNames {role : Role} {type : Parse TypeExpr}
    (h : ∀ n, Reads type n fun t m => Marked n m (Node.type t).nodes) (n : NodeId) :
    Reads (typedNames role type) n fun ds m =>
      Marked n m (declNodes ds) ∧ ds ≠ [] ∧ ∀ d ∈ ds, d.HasRole role := by
  refine peek_bind fun t _ => (reads_typedName h n).bind fun d m hd => ?_
  apply iterate _ (by simpa [declNodes] using hd)
  rintro ds m ⟨hds, hne, hroles⟩
  refine sees_bind fun b => ?_
  split
  · refine next_bind fun t _ => peek_bind fun t _ => (reads_typedName h m).bind fun d k hd => ?_
    refine .pure ⟨?_, by simp, ?_⟩
    · simpa [declNodes] using hds.append hd.1
    · simpa [or_imp, forall_and] using ⟨hroles, hd.2⟩
  · exact .pure ⟨hds, hne, hroles⟩

section
variable {g : Grammar} (hg : g.Good)
include hg

theorem reads_typeRule (n : NodeId) : Reads (typeRule g) n fun t m => Marked n m (Node.type t).nodes := by
  refine enter_bind (next_bind fun t _ => ?_)
  split
  iterate 5 exact reads_node (fun _ => ⟨rfl, trivial⟩) fun _ => .nil
  · exact (hg.type n).bind fun t k ht => symbol_bind (.pure ht)
  · refine symbol_bind ((hg.expr n).bind fun length k hlength => symbol_bind ?_)
    refine (hg.type k).bind fun element l helement => ?_
    exact reads_node (fun _ => ⟨rfl, trivial⟩) fun _ => by simpa using hlength.append helement
  · refine (hg.type n).bind fun target k htarget => ?_
    exact reads_node (fun _ => ⟨rfl, trivial⟩) fun _ => by simpa using htarget
  · refine symbol_bind ((reads_typedNames hg.type n).bind fun components k hcomponents => symbol_bind ?_)
    exact reads_node (fun _ => ⟨rfl, hcomponents.2⟩) fun _ => by simpa using hcomponents.1
  · exact reject

theorem reads_argsRule (n : NodeId) : Reads (argsRule g) n fun es m => Marked n m (exprNodes es) := by
  refine sees_bind fun b => ?_
  split
  · exact symbol_bind (.pure .nil)
  · refine (hg.expr n).bind fun first m hfirst => ?_
    refine (iterate (fun es m => Marked n m (exprNodes es)) (by simpa [exprNodes] using hfirst)
      fun es m hes => sees_bind fun b => ?_).bind fun es k hes => symbol_bind (.pure hes)
    split
    · refine next_bind fun t _ => (hg.expr m).bind fun e k he => .pure ?_
      simpa [exprNodes] using hes.append he
    · exact .pure hes

theorem reads_primaryRule : ReadsExpr (primaryRule g) := fun n => by
  refine enter_bind (next_bind fun t _ => ?_)
  split
  · exact reads_node (fun _ => ⟨rfl, trivial⟩) fun _ => .nil
  · split
    · refine sees_bind fun b => ?_
      split
      · refine next_bind fun t _ => (reads_argsRule hg n).bind fun args k hargs => ?_
        exact reads_node (fun _ => ⟨rfl, trivial⟩) fun _ => by simpa using hargs
      · exact reads_node (fun _ => ⟨rfl, trivial⟩) fun _ => .nil
    · refine (hg.expr n).bind fun value k hvalue => sees_bind fun b => ?_
      split
      · refine next_bind fun t _ => (hg.type k).bind fun t l ht => symbol_bind ?_
        exact reads_node (fun _ => ⟨rfl, trivial⟩) fun _ => by simpa using hvalue.append ht
      · exact symbol_bind (.pure hvalue)
    · refine (hg.stmts n).bind fun stmts k hstmts => symbol_bind ((hg.expr k).bind fun value l hvalue => ?_)
      have hread := hstmts.append hvalue
      -- the declarations are read last, and are the first of the parts
      have hblock : ∀ {m : Nat} (decls : List Decl), Marked l m (declNodes decls) →
          (∀ d ∈ decls, d.Declared) → Reads (do
            Parse.symbol '\x7d'
            return Expr.block (← Parse.mark t.start) stmts value decls) m fun e m =>
              Marked n m (Node.expr e).nodes := fun decls hdecls hdeclared => by
        refine symbol_bind (reads_node (fun _ => ⟨rfl, hdeclared⟩) fun _ => ?_)
        simpa using (hread.append hdecls).perm List.perm_append_comm
      refine sees_bind fun b => ?_
      split
      · exact next_bind fun t _ => (hg.decls l).bind fun decls m hdecls => hblock decls hdecls.1 hdecls.2
      · exact hblock [] .nil (by simp)
    · exact reject

theorem reads_selectorRule : ReadsExpr (selectorRule g) := fun n => by
  refine (reads_primaryRule hg n).bind fun first m hfirst => iterate _ hfirst fun e m he => peek_bind fun t _ => ?_
  split
  · refine next_bind fun t _ => (hg.expr m).bind fun index k hindex => symbol_bind ?_
    exact reads_node (fun _ => ⟨rfl, trivial⟩) fun _ => by simpa using he.append hindex
  · refine next_bind fun t _ => identifier_bind fun name _ => ?_
    exact reads_node (fun _ => ⟨rfl, trivial⟩) fun _ => by simpa using he
  · exact .pure he

theorem reads_factorRule : ReadsExpr (factorRule g) := fun n => by
  refine enter_bind (peek_bind fun t _ => ?_)
  split
  · refine next_bind fun t _ => (hg.factor n).bind fun operand k hoperand => ?_
    exact reads_node (fun _ => ⟨rfl, trivial⟩) fun _ => by simpa using hoperand
  · split
    · refine next_bind fun t _ => symbol_bind ((hg.type n).bind fun t k ht => symbol_bind ?_)
      exact reads_node (fun _ => ⟨rfl, trivial⟩) fun _ => by simpa using ht
    · refine next_bind fun t _ => symbol_bind ((hg.expr n).bind fun e k he => symbol_bind ?_)
      exact reads_node (fun _ => ⟨rfl, trivial⟩) fun _ => by simpa using he
    · exact reads_selectorRule hg n

theorem reads_stmtRule {expr : Parse Expr} (hexpr : ReadsExpr expr) (n : NodeId) :
    Reads (stmtRule expr g) n fun s m => Marked n m (Node.stmt s).nodes := by
  refine enter_bind (peek_bind fun t _ => ?_)
  split
  · refine next_bind fun _ _ => (hg.expr n).bind fun test k htest => word_bind ((hg.stmts k).bind fun yes l hyes => ?_)
    have hcond : ∀ {m : Nat} (no : List Stmt), Marked l m (stmtNodes no) → Reads (do
        Parse.word .end
        return Stmt.cond (← Parse.mark t.start) test yes no) m fun s m =>
          Marked n m (Node.stmt s).nodes := fun no hno =>
      word_bind (reads_node (fun _ => ⟨rfl, trivial⟩) fun _ => by simpa using (htest.append hyes).append hno)
    refine sees_bind fun b => ?_
    split
    · exact next_bind fun _ _ => (hg.stmts l).bind fun no m hno => hcond no hno
    · exact hcond [] .nil
  · refine next_bind fun _ _ => (hg.expr n).bind fun test k htest => word_bind ?_
    refine (hg.stmts k).bind fun body l hbody => word_bind ?_
    exact reads_node (fun _ => ⟨rfl, trivial⟩) fun _ => by simpa using htest.append hbody
  · refine (hexpr n).bind fun dst k hdst => sees_bind fun b => ?_
    split
    · refine next_bind fun _ _ => (hg.expr k).bind fun src l hsrc => ?_
      exact reads_node (fun _ => ⟨rfl, trivial⟩) fun _ => by simpa using hdst.append hsrc
    · exact reads_node (fun _ => ⟨rfl, trivial⟩) fun _ => by simpa using hdst

theorem reads_closedStmt {expr : Parse Expr} (hexpr : ReadsExpr expr) (n : NodeId) :
    Reads (closedStmt expr g) n fun s m => Marked n m (Node.stmt s).nodes :=
  (reads_stmtRule hg hexpr n).bind fun _ _ hs => symbol_bind (.pure hs)

theorem reads_stmtsRule {expr : Parse Expr} (hexpr : ReadsExpr expr) (n : NodeId) :
    Reads (stmtsRule expr g) n fun ss m => Marked n m (stmtNodes ss) := by
  refine (reads_closedStmt hg hexpr n).bind fun s m hs =>
    iterate _ (by simpa [stmtNodes] using hs) fun ss m hss => peek_bind fun t _ => ?_
  split
  · exact .pure hss
  · refine (reads_closedStmt hg hexpr m).bind fun s k hs => .pure ?_
    simpa [stmtNodes] using hss.append hs

theorem reads_paramsRule (n : NodeId) : Reads (paramsRule g) n fun ds m =>
    Marked n m (declNodes ds) ∧ ∀ d ∈ ds, d.HasRole .parameter := by
  refine sees_bind fun b => ?_
  split
  · exact .pure ⟨.nil, by simp⟩
  · exact (reads_typedNames hg.type n).mono fun ds m hds => ⟨hds.1, hds.2.2⟩

theorem reads_functionRule (at_ : Position) (n : NodeId) :
    Reads (functionRule g at_) n fun d m => Marked n m (Node.decl d).nodes ∧ d.Declared := by
  refine identifier_bind fun name hname => symbol_bind ((reads_paramsRule hg n).bind fun params k hparams => ?_)
  refine symbol_bind (symbol_bind ((hg.type k).bind fun result l hresult => sees_bind fun b => ?_))
  have hread := hparams.1.append hresult
  split
  · refine next_bind fun _ _ => (hg.expr l).bind fun body m hbody => mark_bind fun mk hid => .pure ⟨?_, trivial⟩
    exact .node (by simpa using hread.append hbody) hid ⟨hname, hparams.2⟩
  · refine mark_bind fun mk hid => .pure ⟨?_, trivial⟩
    exact .node (by simpa using hread) hid ⟨hname, hparams.2⟩

theorem reads_declRule (n : NodeId) : Reads (declRule g) n fun d m => Marked n m (Node.decl d).nodes ∧ d.Declared := by
  refine enter_bind (next_bind fun t _ => ?_)
  have hclose : ∀ {x : Parse Decl}, (Reads x n fun d m => Marked n m (Node.decl d).nodes ∧ d.Declared) → Reads (do
        let d ← x
        Parse.symbol ';'
        return d) n fun d m => Marked n m (Node.decl d).nodes ∧ d.Declared := fun h =>
    h.bind fun d _ hd => symbol_bind (.pure hd)
  split
  · exact hclose ((reads_typedName hg.type n).mono fun d m h => ⟨h.1, h.2.declared (.inr rfl)⟩)
  · exact hclose ((reads_typedName hg.type n).mono fun d m h => ⟨h.1, h.2.declared (.inl rfl)⟩)
  · exact hclose (reads_functionRule hg _ n)
  · exact hclose reject

theorem reads_declsRule (n : NodeId) :
    Reads (declsRule g) n fun ds m => Marked n m (declNodes ds) ∧ ∀ d ∈ ds, d.Declared := by
  refine (reads_declRule hg n).bind fun d m hd => iterate _ (by simpa [declNodes] using hd) fun ds m hds => ?_
  refine peek_bind fun t _ => ?_
  split
  · refine (reads_declRule hg m).bind fun d k hd => .pure ⟨?_, ?_⟩
    · simpa [declNodes] using hds.1.append hd.1
    · simpa [or_imp, forall_and] using ⟨hds.2, hd.2⟩
  · exact .pure hds

end

theorem good_ofDepth (depth : Nat) : (ofDepth depth).Good := by
  induction depth with
  | zero =>
    have hstuck : ∀ {α : Type} {expected : Expected} {n : NodeId} {post : α → NodeId → Prop},
        Reads (do Parse.reject (← Parse.next) expected) n post := next_bind fun _ _ => reject
    exact ⟨fun _ => hstuck, fun _ => hstuck, fun _ => hstuck, fun _ => hstuck, fun _ => hstuck⟩
  | succ depth ih =>
    have hfactor := reads_factorRule ih
    have hexpr := reads_exprRule hfactor
    exact ⟨hfactor, hexpr, reads_typeRule ih, reads_stmtsRule ih hexpr, reads_declsRule ih⟩

end Grammar

/-- A program as parsing gives it. -/
structure Program.Formed (p : Program) : Prop where
  numbered : p.Numbered
  formed : ∀ q ∈ p.levels, q.2.Formed
  declared : ∀ d ∈ p.decls, d.Declared

namespace Parse

theorem reads_grammar {n : NodeId} : Reads grammar n fun g m => n = m ∧ g.Good := fun _ hs hn =>
  ⟨hs, hn.symm, Grammar.good_ofDepth _⟩

theorem reads_expr (n : NodeId) : Reads expr n fun e m => Marked n m (Node.expr e).nodes :=
  reads_grammar.bind fun _ _ hg => hg.1 ▸ hg.2.expr n

theorem reads_program (n : NodeId) : Reads program n fun p m =>
    Marked n m (declNodes p.decls) ∧ ∀ d ∈ p.decls, d.Declared := by
  refine reads_grammar.bind fun g m hg => hg.1 ▸ (hg.2.decls n).bind fun decls m hdecls => .peek_bind fun t _ => ?_
  split
  · exact .pure hdecls
  · exact .next_bind fun _ _ => .reject

end Parse

theorem Program.declNodes_eq (p : Program) : declNodes p.decls = p.levels.map Prod.snd := by
  rw [← entered_walk, walk, Decl.walkAll_eq, entered_flatMap]
  rfl

theorem Program.marked_parse {src : String} {p : Program} (h : (Program.parse src).1 = .ok p) :
    (∃ n, Marked 0 n (declNodes p.decls)) ∧ ∀ d ∈ p.decls, d.Declared := by
  have hmeets := Parse.reads_program 0 (.ofString src) (Stream.named_ofScanner _) rfl
  rw [Program.parse] at h
  exact (hmeets.of_gives (Prod.ext h rfl)).2.imp_left fun h => ⟨_, h⟩

theorem Program.formed_parse {src : String} {p : Program} (h : (Program.parse src).1 = .ok p) : p.Formed := by
  obtain ⟨⟨n, hmarked⟩, hdeclared⟩ := marked_parse h
  rw [declNodes_eq] at hmarked
  refine ⟨?_, fun q hq => hmarked.formed q.2 (List.mem_map_of_mem hq), hdeclared⟩
  simpa [Program.Numbered, Function.comp_def] using hmarked.ids.nodup_iff.mpr List.nodup_range'

/-- The characters of a text are read as they are, and need not be decoded first. -/
theorem Program.parse_ofList (text : List Char) : Program.parse (.ofList text) =
    Parse.program.run.run { stream := .ofScanner ⟨text, {}, text.isEmpty, none⟩ } := by
  rw [Program.parse, Reader.ofString, Stream.ofString, Scanner.ofString, String.toList_ofList]

end MmixCompiler
