import MmixCompiler.Proofs.Ir.Separation
import MmixCompiler.Proofs.Tree.Evaluation

/-! The code that is made from a program. `Coded` says what code each form of expression and statement has, and what
is recorded of it, by the tables of analysis, layout and generation; what generation makes is `Coded`, and it succeeds
for every program that is laid out. -/

namespace MmixCompiler

open List

/-- Nodes, and the code that is made from them. -/
inductive Translation where
  | value (e : Expr) (c : Ir.Expr)
  | address (e : Expr) (c : Ir.Expr)
  | values (es : List Expr) (cs : List Ir.Expr)
  | stmt (s : Stmt) (c : Ir.Stmt)
  | stmts (ss : List Stmt) (cs : List Ir.Stmt)
  /-- The bodies of functions among declarations, which have code of their own. -/
  | bodies (ds : List Decl)

/-- The code of an expression that denotes no place is recorded, and no address. -/
def Code.HasValue (code : Code) (mark : Mark) (c : Ir.Expr) : Prop :=
  code.addresses[mark.id]? = none ∧ code.exprs[mark.id]? = some c

/-- The address of an expression that denotes a place is recorded, and no other value than the word there. -/
def Code.HasAddress (code : Code) (mark : Mark) (c : Ir.Expr) : Prop :=
  code.addresses[mark.id]? = some c ∧ ∀ v, code.exprs[mark.id]? = some v → v = .mem c

section
variable (a : Analysis) (l : Layout) (code : Code) (bound : Nat)

/-- The code of nodes in a function with the given frame. Fresh labels are below `bound`. -/
inductive Coded : Frame → Translation → Prop where
  | number {f mark literal n} (h : Literal.number? literal = some n) (hnoted : code.HasValue mark (.const n)) :
      Coded f (.value (.lit mark literal) (.const n))
  | string {f mark content number} (h : code.strings[mark.id]? = some (.fresh number, content))
      (hnoted : code.HasValue mark (.name (.fresh number))) :
      Coded f (.value (.lit mark (.str content)) (.name (.fresh number)))
  | load {f e c} (h : Coded f (.address e c)) : Coded f (.value e (.mem c))
  | name {f mark name d x c} (hd : a.bindings[mark.id]? = some d) (hx : l.accesses[d.id]? = some x)
      (hc : x.address f d.name mark.position = .ok c) (hnoted : code.HasAddress mark c) :
      Coded f (.address (.name mark name) c)
  | deref {f mark operand c} (h : Coded f (.value operand c)) (hnoted : code.HasAddress mark c) :
      Coded f (.address (.unary mark .deref operand) c)
  | index {f mark array index base c t u} (harray : Coded f (.address array base))
      (hindex : Coded f (.value index c)) (hu : a.typing.exprTypes[array.id]? = some u)
      (ht : a.registry.element? u = some t)
      (hnoted : code.HasAddress mark (.binop .add base (.binop .mul c (.const (a.registry.bytes t))))) :
      Coded f (.address (.index mark array index) (.binop .add base (.binop .mul c (.const (a.registry.bytes t)))))
  | field {f mark record name base t fields i} (hrecord : Coded f (.address record base))
      (ht : a.typing.exprTypes[record.id]? = some t) (hfields : a.registry.fields? t = some fields)
      (hi : fields.findIdx? (fun f => f.1 = name) = some i)
      (hnoted : code.HasAddress mark (.binop .add base (.const (a.registry.fieldOffset t i)))) :
      Coded f (.address (.field mark record name) (.binop .add base (.const (a.registry.fieldOffset t i))))
  | call {f mark name args d callee link cs} (hd : a.bindings[mark.id]? = some d)
      (hcallee : l.frames[d.id]? = some callee) (hlink : f.linkTo callee = .ok link)
      (hargs : Coded f (.values args cs)) (hnoted : code.HasValue mark (.call callee.label (link :: cs))) :
      Coded f (.value (.call mark name args) (.call callee.label (link :: cs)))
  | binary {f mark op lhs rhs c₁ c₂} (hlhs : Coded f (.value lhs c₁)) (hrhs : Coded f (.value rhs c₂))
      (hnoted : code.HasValue mark (.binop op c₁ c₂)) :
      Coded f (.value (.binary mark op lhs rhs) (.binop op c₁ c₂))
  | plus {f mark operand c} (h : Coded f (.value operand c)) (hnoted : code.HasValue mark c) :
      Coded f (.value (.unary mark .plus operand) c)
  | minus {f mark operand c} (h : Coded f (.value operand c)) (hnoted : code.HasValue mark (.unop .neg c)) :
      Coded f (.value (.unary mark .minus operand) (.unop .neg c))
  | not {f mark operand c} (h : Coded f (.value operand c)) (hnoted : code.HasValue mark (.unop .not c)) :
      Coded f (.value (.unary mark .not operand) (.unop .not c))
  | addr {f mark operand c} (h : Coded f (.address operand c)) (hnoted : code.HasValue mark c) :
      Coded f (.value (.unary mark .addr operand) c)
  | cast {f mark operand type c t} (h : Coded f (.value operand c)) (ht : a.typing.typeTypes[type.id]? = some t)
      (hnoted : code.HasValue mark (if a.registry.isChar t then .binop .mod c (.const 256) else c)) :
      Coded f (.value (.cast mark operand type) (if a.registry.isChar t then .binop .mod c (.const 256) else c))
  | new {f mark type t} (ht : a.typing.typeTypes[type.id]? = some t)
      (hnoted : code.HasValue mark (.call (.named "new") [.const 0, .const (a.registry.bytes t)])) :
      Coded f (.value (.new mark type) (.call (.named "new") [.const 0, .const (a.registry.bytes t)]))
  | del {f mark operand c} (h : Coded f (.value operand c))
      (hnoted : code.HasValue mark (.call (.named "del") [.const 0, c])) :
      Coded f (.value (.del mark operand) (.call (.named "del") [.const 0, c]))
  | block {f mark stmts result decls cs c} (hdecls : Coded f (.bodies decls))
      (hstmts : Coded f (.stmts stmts cs)) (hresult : Coded f (.value result c))
      (hnoted : code.HasValue mark (.after (.block cs) c)) :
      Coded f (.value (.block mark stmts result decls) (.after (.block cs) c))
  | noValues {f} : Coded f (.values [] [])
  | values {f e es c cs} (h : Coded f (.value e c)) (hs : Coded f (.values es cs)) :
      Coded f (.values (e :: es) (c :: cs))
  | eval {f mark value c} (h : Coded f (.value value c)) : Coded f (.stmt (.expr mark value) (.eval c))
  | assign {f mark dst src c₁ c₂} (hdst : Coded f (.address dst c₁)) (hsrc : Coded f (.value src c₂)) :
      Coded f (.stmt (.assign mark dst src) (.move (.mem c₁) c₂))
  | cond {f mark test yes no c cs ds yesLabel noLabel endLabel} (htest : Coded f (.value test c))
      (hyes : Coded f (.stmts yes cs)) (hno : Coded f (.stmts no ds))
      (hlabels : [yesLabel, noLabel, endLabel].Nodup) :
      Coded f (.stmt (.cond mark test yes no)
        (.block [.branch c yesLabel noLabel, .label yesLabel, .block cs, .jump endLabel, .label noLabel, .block ds,
          .label endLabel]))
  | loop {f mark test body c cs testLabel bodyLabel endLabel} (htest : Coded f (.value test c))
      (hbody : Coded f (.stmts body cs)) (hlabels : [testLabel, bodyLabel, endLabel].Nodup) :
      Coded f (.stmt (.loop mark test body)
        (.block [.label testLabel, .branch c bodyLabel endLabel, .label bodyLabel, .block cs, .jump testLabel,
          .label endLabel]))
  | noStmts {f} : Coded f (.stmts [] [])
  | stmts {f s ss c cs} (h : Coded f (.stmt s c)) (hs : Coded f (.stmts ss cs)) :
      Coded f (.stmts (s :: ss) (c :: cs))
  | noBodies {f} : Coded f (.bodies [])
  | noBody {f d ds} (h : Decl.body? d = none) (hs : Coded f (.bodies ds)) : Coded f (.bodies (d :: ds))
  | body {f g mark name params result body ds c} (hframe : l.frames[mark.id]? = some g)
      (hnoted : code.bodies[mark.id]? = some c) (hnodup : c.labels.Nodup)
      (hbound : ∀ x ∈ c.labels, ∃ n < bound, x = .fresh n) (h : Coded g (.value body c))
      (hs : Coded f (.bodies ds)) : Coded f (.bodies (.function mark name params result body :: ds))

end

structure Code.AgreesAt (c c' : Code) (id : NodeId) : Prop where
  strings : c.strings[id]? = c'.strings[id]?
  bodies : c.bodies[id]? = c'.bodies[id]?
  addresses : c.addresses[id]? = c'.addresses[id]?
  exprs : c.exprs[id]? = c'.exprs[id]?

theorem Code.AgreesAt.refl (c : Code) (id : NodeId) : c.AgreesAt c id := ⟨rfl, rfl, rfl, rfl⟩

theorem Code.AgreesAt.trans {c c' c'' : Code} {id : NodeId} (h : c.AgreesAt c' id) (h' : c'.AgreesAt c'' id) :
    c.AgreesAt c'' id :=
  ⟨h.strings.trans h'.strings, h.bodies.trans h'.bodies, h.addresses.trans h'.addresses, h.exprs.trans h'.exprs⟩

def Code.ClearAt (c : Code) (id : NodeId) : Prop := c.exprs[id]? = none ∧ c.addresses[id]? = none

theorem Code.ClearAt.agrees {c c' : Code} {id : NodeId} (h : c.ClearAt id) (h' : c'.AgreesAt c id) : c'.ClearAt id :=
  ⟨h'.exprs.trans h.1, h'.addresses.trans h.2⟩

/-- The state after code is noted for an expression, or not. -/
def Generator.noting (g : Generator) (mark : Mark) : Option Ir.Expr → Generator
  | none => g
  | some c => { g with code := { g.code with exprs := g.code.exprs.insert mark.id c } }

theorem Generator.agreesAt_noting (g : Generator) (mark : Mark) (v : Option Ir.Expr) {id : NodeId} (h : id ≠ mark.id) :
    (g.noting mark v).code.AgreesAt g.code id := by
  cases v with
  | none => exact .refl _ _
  | some c =>
    exact ⟨rfl, rfl, rfl, getElem?_note_of_ne h⟩

/-- Generation has made something for the nodes with the given numbers, of which nothing was recorded, with labels that
were fresh. -/
structure Generator.Makes (ids : List NodeId) (ls : List Label) (P : Code → Nat → Prop) (g g' : Generator) : Prop where
  temps : g'.supply.temps = g.supply.temps
  labels : g.supply.labels ≤ g'.supply.labels
  nodup : ls.Nodup
  fresh : ∀ x ∈ ls, x.Between g.supply.labels g'.supply.labels
  others : ∀ id ∉ ids, g'.code.AgreesAt g.code id
  made : ∀ code bound, (∀ id ∈ ids, g.code.ClearAt id ∧ code.AgreesAt g'.code id) → g'.supply.labels ≤ bound →
    P code bound
  draws : g.Tidy → g.Draws ls g'

namespace Generator.Makes

variable {ids ids' : List NodeId} {ls ks : List Label} {P Q : Code → Nat → Prop} {g g₁ g' : Generator}

theorem idle (g : Generator) : g.Makes [] [] (fun _ _ => True) g :=
  ⟨rfl, Nat.le_refl _, nodup_nil, by simp, fun _ _ => .refl _ _, fun _ _ _ _ => trivial, .idle⟩

theorem mono (h : Makes ids ls P g g') (hids : ids ⊆ ids') (hls : ks.Perm ls)
    (hP : ∀ code bound, P code bound → Q code bound) : Makes ids' ks Q g g' :=
  ⟨h.temps, h.labels, hls.nodup_iff.mpr h.nodup, fun x hx => h.fresh x (hls.subset hx),
    fun id hid => h.others id fun hmem => hid (hids hmem),
    fun code bound hcode hbound => hP _ _ (h.made code bound (fun id hid => hcode id (hids hid)) hbound),
    fun hg => (h.draws hg).subset hls.subset⟩

theorem imp (h : Makes ids ls P g g') (hP : ∀ code bound, P code bound → Q code bound) : Makes ids ls Q g g' :=
  h.mono (List.Subset.refl _) (.refl _) hP

theorem append {qs rs : List (Nat × Node)} (h : Makes (idsOf qs) ls P g g₁) (h' : Makes (idsOf rs) ks Q g₁ g')
    (hnodup : (idsOf (qs ++ rs)).Nodup) :
    Makes (idsOf (qs ++ rs)) (ls ++ ks) (fun code bound => P code bound ∧ Q code bound) g g' := by
  have hdisjoint := (nodup_idsOf_append hnodup).2.2
  rw [idsOf_append]
  exact {
    temps := h'.temps.trans h.temps
    labels := Nat.le_trans h.labels h'.labels
    nodup := by
      refine nodup_append.mpr ⟨h.nodup, h'.nodup, fun x hx y hy heq => ?_⟩
      subst heq
      exact (h.fresh x hx).false_of_le (h'.fresh x hy) (Nat.le_refl _)
    fresh := by
      intro x hx
      rcases mem_append.mp hx with hx | hx
      · exact (h.fresh x hx).mono (Nat.le_refl _) h'.labels
      · exact (h'.fresh x hx).mono h.labels (Nat.le_refl _)
    others := by
      intro id hid
      rw [mem_append, not_or] at hid
      exact (h'.others id hid.2).trans (h.others id hid.1)
    made := by
      intro code bound hcode hbound
      refine ⟨h.made code bound (fun id hid => ?_) (Nat.le_trans h'.labels hbound),
        h'.made code bound (fun id hid => ?_) hbound⟩
      · obtain ⟨hclear, hagrees⟩ := hcode id (mem_append_left _ hid)
        exact ⟨hclear, hagrees.trans (h'.others id (hdisjoint id hid))⟩
      · obtain ⟨hclear, hagrees⟩ := hcode id (mem_append_right _ hid)
        exact ⟨hclear.agrees (h.others id fun hid' => hdisjoint id hid' hid), hagrees⟩
    draws := fun hg => (h.draws hg).append (h'.draws (h.draws hg).tidy) }

theorem under {k : Nat} {n : Node} (h : Makes (idsOf (n.parts true k)) ls P g g')
    (hP : ∀ code bound, P code bound → Q code bound) : Makes (idsOf [(k, n)]) ls Q g g' := by
  rw [idsOf_singleton k k]
  exact h.mono (subset_cons_self _ _) (.refl _) hP

theorem note (h : Makes ids ls P g g₁) {id : NodeId} (hid : id ∉ ids) (hsupply : g'.supply = g₁.supply)
    (hothers : ∀ i ≠ id, g'.code.AgreesAt g₁.code i) (hdraws : g.Tidy → g.Draws ls g') :
    Makes (id :: ids) ls (fun code bound => P code bound ∧ g₁.code.ClearAt id ∧ code.AgreesAt g'.code id) g g' where
  temps := by rw [hsupply, h.temps]
  labels := by rw [hsupply]; exact h.labels
  nodup := h.nodup
  fresh := by rw [hsupply]; exact h.fresh
  others i hi := by
    rw [mem_cons, not_or] at hi
    exact (hothers i hi.1).trans (h.others i hi.2)
  made code bound hcode hbound := by
    rw [hsupply] at hbound
    obtain ⟨hclear, hagrees⟩ := hcode id mem_cons_self
    refine ⟨h.made code bound (fun i hi => ?_) hbound, hclear.agrees (h.others id hid), hagrees⟩
    obtain ⟨hclear, hagrees⟩ := hcode i (mem_cons_of_mem _ hi)
    exact ⟨hclear, hagrees.trans (hothers i fun heq => hid (heq ▸ hi))⟩
  draws := hdraws

theorem noting (h : Makes ids ls P g g₁) {mark : Mark} (hid : mark.id ∉ ids) (v : Option Ir.Expr) :
    Makes (mark.id :: ids) ls (fun code bound => P code bound ∧ g₁.code.ClearAt mark.id ∧
      code.AgreesAt (g₁.noting mark v).code mark.id) g (g₁.noting mark v) :=
  h.note hid (by cases v <;> rfl) (fun _ hi => g₁.agreesAt_noting mark v hi) fun hg =>
    (h.draws hg).same (by cases v <;> rfl) (by cases v <;> rfl) (by cases v <;> rfl)

theorem same (h : Makes ids ls P g g₁) (hsupply : g'.supply = g₁.supply) (hall : ∀ i, g'.code.AgreesAt g₁.code i)
    (hbodies : g'.code.bodies = g₁.code.bodies) (hstrings : g'.code.strings = g₁.code.strings) :
    Makes ids ls P g g' where
  temps := by rw [hsupply, h.temps]
  labels := by rw [hsupply]; exact h.labels
  nodup := h.nodup
  fresh := by rw [hsupply]; exact h.fresh
  others i hi := (hall i).trans (h.others i hi)
  made code bound hcode hbound :=
    h.made code bound (fun i hi => ⟨(hcode i hi).1, (hcode i hi).2.trans (hall i)⟩) (hsupply ▸ hbound)
  draws hg := (h.draws hg).same hsupply hbodies hstrings

theorem bounded (h : Makes ids ls P g g') :
    Makes ids ls (fun code bound => P code bound ∧ ∀ x ∈ ls, ∃ n < bound, x = .fresh n) g g' :=
  { h with
    made := fun code bound hcode hbound => ⟨h.made code bound hcode hbound, fun x hx => by
      obtain ⟨n, hn, -, hlt⟩ := h.fresh x hx
      exact ⟨n, Nat.lt_of_lt_of_le hlt hbound, hn⟩⟩ }

theorem forget (h : Makes ids ls P g g') : Makes ids [] P g g' :=
  { h with nodup := nodup_nil, fresh := by simp, draws := fun hg => (h.draws hg).subset (nil_subset _) }

theorem label (g : Generator) : g.Makes [] [.fresh g.supply.labels] (fun _ _ => True) g.withLabel where
  temps := rfl
  labels := Nat.le_succ _
  nodup := nodup_singleton _
  fresh _ hx := ⟨_, mem_singleton.mp hx, Nat.le_refl _, Nat.lt_succ_self _⟩
  others _ _ := .refl _ _
  made _ _ _ _ := trivial
  draws := .withLabel

theorem labels₃ (g : Generator) : g.Makes (idsOf []) [.fresh g.supply.labels, .fresh g.withLabel.supply.labels,
    .fresh g.withLabel.withLabel.supply.labels] (fun _ _ => True) g.withLabel.withLabel.withLabel := by
  have hlabel : ∀ g : Generator, g.Makes (idsOf []) [.fresh g.supply.labels] (fun _ _ => True) g.withLabel := label
  have hnodup : (idsOf ([] ++ [])).Nodup := nodup_nil
  exact (((hlabel g).append (hlabel _) hnodup).append (hlabel _) hnodup).imp fun _ _ _ => trivial

end Generator.Makes

/-- The code of an expression: its address if `place` is set. -/
def Translation.expr (place : Bool) (e : Expr) (c : Ir.Expr) : Translation :=
  if place then .address e c else .value e c

section
variable (a : Analysis) (l : Layout)

/-- A computation makes code, of which `P` holds, for the nodes with the given numbers. It may fail if the program is
not laid out. -/
def Gen.Makes (laid : Prop) (ids : List NodeId) (P : Ir.Expr → Code → Nat → Prop) (x : Gen Ir.Expr) : Prop :=
  ∀ g, Meets x g (fun c g' => g.Makes ids c.labels (P c) g') fun _ => ¬ laid

/-- Code can be made from a node on level `k`, if the program is laid out. The word at a place may be noted later. -/
def Node.Codable (laid : Prop) (k : Nat) : Node → Prop
  | .expr e => ∀ f : Frame, (laid → f.depth = k) → ∀ place, (place = true → e.isPlace a.bindings) → ∀ g,
    Meets (e.code a l f place) g (fun c g' => ∀ v, v = none ∨ place = true ∧ v = some (.mem c) →
      g.Makes (idsOf [(k, .expr e)]) c.labels (fun code bound => Coded a l code bound f (.expr place e c))
        (g'.noting e.mark v)) fun _ => ¬ laid
  | .stmt s => ∀ f : Frame, (laid → f.depth = k) → ∀ g,
    Meets (s.code a l f) g (fun c g' => g.Makes (idsOf [(k, .stmt s)]) c.labels
      (fun code bound => Coded a l code bound f (.stmt s c)) g') fun _ => ¬ laid
  | .decl d => ∀ g, Meets (d.codeBody a l) g (fun _ g' => g.Makes (idsOf [(k, .decl d)]) []
      (fun code bound => ∀ f ds, Coded a l code bound f (.bodies ds) → Coded a l code bound f (.bodies (d :: ds)))
      g') fun _ => ¬ laid
  | .type _ => True

end

section
variable {a : Analysis} {l : Layout} {laid : Prop} {g : Generator} {ids : List NodeId} {f : Frame}
  {mark : Mark} {k : Nat}

open Gen

theorem meets_given {α : Type} {r : Except CompileError α} {post : α → Generator → Prop} (hr : laid → ∃ x, r = .ok x)
    (h : ∀ x, r = .ok x → post x g) : Meets (liftM r : Gen α) g post fun _ => ¬ laid := by
  cases r with
  | ok x => exact h x rfl
  | error e =>
    intro hlaid
    obtain ⟨x, hx⟩ := hr hlaid
    cases hx

theorem meets_label {post : Label → Generator → Prop} {fault : CompileError → Prop} :
    Meets label g post fault ↔ post (.fresh g.supply.labels) g.withLabel := Iff.rfl

theorem makes_value {x : Gen Ir.Expr} {e : Expr} (h : x.Makes laid ids fun c code bound =>
      code.HasValue mark c → Coded a l code bound f (.value e c)) (hid : mark.id ∉ ids) :
    (value false mark x).Makes laid (mark.id :: ids) fun c code bound => Coded a l code bound f (.value e c) := by
  intro g
  rw [value, if_neg Bool.false_ne_true]
  refine (h g).bind fun c g₁ hmade => ?_
  rw [meets_bind, noteExpr, meets_modify, meets_pure]
  apply (hmade.noting hid (some c)).imp
  rintro code bound ⟨hcoded, hclear, hagrees⟩
  exact hcoded ⟨hagrees.addresses.trans hclear.2, hagrees.exprs.trans Std.TreeMap.getElem?_insert_self⟩

theorem meets_located {x : Gen Ir.Expr} {e : Expr} {place : Bool} (h : x.Makes laid ids fun c code bound =>
      code.HasAddress mark c → Coded a l code bound f (.address e c)) (hid : mark.id ∉ ids) :
    Meets (located place mark x) g (fun c g' => ∀ v, v = none ∨ place = true ∧ v = some (.mem c) →
      g.Makes (mark.id :: ids) c.labels (fun code bound => Coded a l code bound f (.expr place e c))
        (g'.noting mark v)) fun _ => ¬ laid := by
  rw [located]
  refine (h g).bind fun c g₁ hmade => ?_
  rw [meets_bind, noteAddress, meets_modify]
  let g₂ : Generator := { g₁ with code := { g₁.code with addresses := g₁.code.addresses.insert mark.id c } }
  have hnoted : ∀ v, v = none ∨ v = some (.mem c) → g.Makes (mark.id :: ids) c.labels
      (fun code bound => Coded a l code bound f (.address e c)) (g₂.noting mark v) := fun v hv => by
    have hothers : ∀ i ≠ mark.id, (g₂.noting mark v).code.AgreesAt g₁.code i := fun i hi =>
      (g₂.agreesAt_noting mark v hi).trans ⟨rfl, rfl, getElem?_note_of_ne hi, rfl⟩
    refine (hmade.note hid (by cases v <;> rfl) hothers fun hg =>
      (hmade.draws hg).same (by cases v <;> rfl) (by cases v <;> rfl) (by cases v <;> rfl)).imp ?_
    rintro code bound ⟨hcoded, hclear, hagrees⟩
    refine hcoded ⟨hagrees.addresses.trans ?_, fun x hx => ?_⟩
    · cases v <;> exact Std.TreeMap.getElem?_insert_self
    · have hx := hagrees.exprs.symm.trans hx
      rcases hv with rfl | rfl
      · cases hclear.1.symm.trans hx
      · exact (Option.some.inj (Std.TreeMap.getElem?_insert_self.symm.trans hx)).symm
  cases place with
  | true => exact fun v hv => hnoted v (hv.imp_right And.right)
  | false =>
    rw [if_neg Bool.false_ne_true, meets_bind, noteExpr, meets_modify, meets_pure]
    intro v hv
    obtain rfl : v = none := by simpa using hv
    exact (hnoted _ (.inr rfl)).imp fun _ _ hcoded => hcoded.load

theorem meets_codes {es : List Expr} (h : ∀ e ∈ es, (Node.expr e).Codable a l laid k)
    (hnodup : (idsOf (es.map fun e => (k, .expr e))).Nodup) (hf : laid → f.depth = k) (g : Generator) :
    Meets (Expr.codes a l f es) g (fun cs g' => g.Makes (idsOf (es.map fun e => (k, .expr e))) (Ir.Expr.labelsAll cs)
      (fun code bound => Coded a l code bound f (.values es cs)) g') fun _ => ¬ laid := by
  induction es generalizing g with
  | nil => exact (Generator.Makes.idle g).imp fun _ _ _ => .noValues
  | cons e es ih =>
    rw [Expr.codes]
    refine (h e mem_cons_self f hf false (by simp) g).bind fun c g₁ hc => ?_
    have hc := hc none (.inl rfl)
    refine (ih (fun e he => h e (mem_cons_of_mem _ he)) (nodup_idsOf_tail hnodup) g₁).bind fun cs g₂ hcs => ?_
    apply (hc.append hcs hnodup).imp
    rintro _ _ ⟨h, hs⟩
    exact .values h hs

theorem meets_stmtCodes {ss : List Stmt} (h : ∀ s ∈ ss, (Node.stmt s).Codable a l laid k)
    (hnodup : (idsOf (ss.map fun s => (k, .stmt s))).Nodup) (hf : laid → f.depth = k) (g : Generator) :
    Meets (Stmt.codes a l f ss) g (fun cs g' => g.Makes (idsOf (ss.map fun s => (k, .stmt s))) (Ir.Stmt.labelsAll cs)
      (fun code bound => Coded a l code bound f (.stmts ss cs)) g') fun _ => ¬ laid := by
  induction ss generalizing g with
  | nil => exact (Generator.Makes.idle g).imp fun _ _ _ => .noStmts
  | cons s ss ih =>
    rw [Stmt.codes]
    refine (h s mem_cons_self f hf g).bind fun c g₁ hc => ?_
    refine (ih (fun s hs => h s (mem_cons_of_mem _ hs)) (nodup_idsOf_tail hnodup) g₁).bind fun cs g₂ hcs => ?_
    apply (hc.append hcs hnodup).imp
    rintro _ _ ⟨h, hs⟩
    exact .stmts h hs

theorem meets_codeBodies {ds : List Decl} (h : ∀ d ∈ ds, (Node.decl d).Codable a l laid k)
    (hnodup : (idsOf (ds.map fun d => (k, .decl d))).Nodup) (g : Generator) :
    Meets (Decl.codeBodies a l ds) g (fun _ g' => g.Makes (idsOf (ds.map fun d => (k, .decl d))) []
      (fun code bound => ∀ f, Coded a l code bound f (.bodies ds)) g') fun _ => ¬ laid := by
  induction ds generalizing g with
  | nil => exact (Generator.Makes.idle g).imp fun _ _ _ _ => .noBodies
  | cons d ds ih =>
    rw [Decl.codeBodies]
    refine (h d mem_cons_self g).bind fun _ g₁ hc => ?_
    refine (ih (fun d hd => h d (mem_cons_of_mem _ hd)) (nodup_idsOf_tail hnodup) g₁).mono fun _ g₂ hcs => ?_
    apply (hc.append hcs hnodup).imp
    rintro _ _ ⟨h, hs⟩ f
    exact h f ds (hs f)

theorem makes_literal {literal : Literal} : (value false mark (literal.code mark)).Makes laid [mark.id]
    fun c code bound => Coded a l code bound f (.value (.lit mark literal) c) := by
  intro g
  have hidle : ∀ n : Int, literal.number? = some n → g.Makes [mark.id] (Ir.Expr.const n).labels
      (fun code bound => Coded a l code bound f (.value (.lit mark literal) (.const n)))
      (g.noting mark (some (.const n))) := by
    intro n hn
    apply ((Generator.Makes.idle g).noting not_mem_nil _).imp
    rintro code bound ⟨-, hclear, hagrees⟩
    exact .number hn ⟨hagrees.addresses.trans hclear.2, hagrees.exprs.trans Std.TreeMap.getElem?_insert_self⟩
  rw [value, if_neg Bool.false_ne_true, meets_bind]
  cases literal with
  | str content =>
    rw [Literal.code, meets_bind, meets_label, meets_bind, noteString, meets_modify, meets_pure, meets_bind, noteExpr,
      meets_modify, meets_pure]
    refine ((Generator.Makes.label g).forget.note not_mem_nil ?_ ?_ fun hg => ?_).imp ?_
    · rfl
    · exact fun i hi => ⟨getElem?_note_of_ne hi, rfl, rfl, getElem?_note_of_ne hi⟩
    · refine (Generator.Draws.withLabel hg).keep (o := .string mark.id) rfl ?_ ?_
      · rintro x ⟨content, hx⟩
        rw [Std.TreeMap.getElem?_insert_self] at hx
        cases hx
        exact mem_singleton_self _
      · rintro (id | id) x hne hx
        · exact hx
        · obtain ⟨content, hx⟩ := hx
          exact ⟨content, (getElem?_note_of_ne fun heq => hne (congrArg _ heq)).symm.trans hx⟩
    · rintro code bound ⟨-, hclear, hagrees⟩
      exact .string (hagrees.strings.trans Std.TreeMap.getElem?_insert_self)
        ⟨hagrees.addresses.trans hclear.2, hagrees.exprs.trans Std.TreeMap.getElem?_insert_self⟩
  | _ => exact hidle _ rfl

end

section
variable {p : Program} {a : Analysis} {l : Layout} {s : Supply} {laid : Prop} {k : Nat}

theorem Frame.labels_link (f : Frame) (n : Nat) : (f.link n).labels = [] := by
  induction n with
  | zero => rfl
  | succ n ih => exact ih

theorem Access.address_cases {x : Access} {f : Frame} {name : String} {position : Position} {c : Ir.Expr}
    (h : x.address f name position = .ok c) : (∃ label size, x = .absolute label size ∧ c = .name label) ∨
      ∃ n offset, c = .binop .add (f.link n) (.const offset) := by
  cases x with
  | absolute label size =>
    cases h
    exact .inl ⟨label, size, rfl, rfl⟩
  | relative offset depth size =>
    simp only [Access.address] at h
    split at h
    · cases h
      exact .inr ⟨_, _, rfl⟩
    · cases h

theorem Access.labels_address {x : Access} {f : Frame} {name : String} {position : Position} {c : Ir.Expr}
    (h : x.address f name position = .ok c) : c.labels = [] := by
  obtain ⟨label, size, -, rfl⟩ | ⟨n, offset, rfl⟩ := Access.address_cases h
  · rfl
  · simp [Ir.Expr.labels, f.labels_link]

theorem Access.Suits.exists_address {x : Access} {d : Decl} {j : Nat} (h : x.Suits j d) {f : Frame} (hle : j ≤ f.depth)
    (name : String) (position : Position) : ∃ c, x.address f name position = .ok c := by
  cases x with
  | absolute label size => exact ⟨.name label, rfl⟩
  | relative offset depth size =>
    obtain ⟨rfl, -⟩ := h
    exact ⟨_, if_pos hle⟩

theorem Frame.linkTo_cases {f callee : Frame} {c : Ir.Expr} (h : f.linkTo callee = .ok c) :
    c = .const 0 ∨ ∃ n, c = f.link n := by
  simp only [Frame.linkTo] at h
  split at h
  · cases h
    exact .inl rfl
  · split at h
    · cases h
      exact .inr ⟨_, rfl⟩
    · cases h

theorem Frame.labels_linkTo {f callee : Frame} {c : Ir.Expr} (h : f.linkTo callee = .ok c) : c.labels = [] := by
  obtain rfl | ⟨n, rfl⟩ := Frame.linkTo_cases h
  · rfl
  · exact f.labels_link n

theorem Frame.exists_linkTo {f callee : Frame} (hle : callee.depth ≤ f.depth + 1) : ∃ c, f.linkTo callee = .ok c := by
  unfold Frame.linkTo
  split
  · exact ⟨_, rfl⟩
  · exact ⟨_, rfl⟩

section
variable {e : Expr} {x : Frame → Gen Ir.Expr}
  (hnodup : ((Node.expr e).id :: idsOf ((Node.expr e).parts true k)).Nodup)
include hnodup

theorem codable_value (hcode : ∀ f place, e.code a l f place = Gen.value place e.mark (x f))
    (hnone : e.isPlace a.bindings = false)
    (h : ∀ f : Frame, (laid → f.depth = k) → (x f).Makes laid (idsOf ((Node.expr e).parts true k)) fun c code bound =>
      code.HasValue e.mark c → Coded a l code bound f (.value e c)) : (Node.expr e).Codable a l laid k := by
  intro f hf place hplace g
  cases place with
  | true => exact absurd (hplace rfl) (by simp [hnone])
  | false =>
    rw [hcode, idsOf_singleton k k]
    refine (makes_value (h f hf) (nodup_cons.mp hnodup).1 g).mono fun c g' hc v hv => ?_
    obtain rfl : v = none := by simpa using hv
    exact hc

theorem codable_located (hcode : ∀ f place, e.code a l f place = Gen.located place e.mark (x f))
    (h : ∀ f : Frame, (laid → f.depth = k) → (x f).Makes laid (idsOf ((Node.expr e).parts true k)) fun c code bound =>
      code.HasAddress e.mark c → Coded a l code bound f (.address e c)) : (Node.expr e).Codable a l laid k := by
  intro f hf place _ g
  rw [hcode, idsOf_singleton k k]
  exact meets_located (h f hf) (nodup_cons.mp hnodup).1

end

theorem Node.Codable.makes {e : Expr} (h : (Node.expr e).Codable a l laid k) {f : Frame} (hf : laid → f.depth = k) :
    (e.code a l f false).Makes laid (idsOf [(k, .expr e)]) fun c code bound => Coded a l code bound f (.value e c) :=
  fun g => (h f hf false (by simp) g).mono fun _ _ hc => hc none (.inl rfl)

theorem Program.Analyzed.codable_expr (h : p.Analyzed a) (hl : laid → p.LaidOut l s) {e : Expr}
    (he : p.InCode (k, .expr e))
    (hparts : ∀ q ∈ (Node.expr e).parts true k, q.2.isType = false → q.2.Codable a l laid q.1) :
    (Node.expr e).Codable a l laid k := by
  have hnodup := h.formed.numbered.nodup_parts he.has k
  have hids : (idsOf ((Node.expr e).parts true k)).Nodup := (nodup_cons.mp hnodup).2
  have hpart : ∀ e', (k, Node.expr e') ∈ (Node.expr e).parts true k → ∀ f : Frame, (laid → f.depth = k) →
      (e'.code a l f false).Makes laid (idsOf [(k, .expr e')]) fun c code bound =>
        Coded a l code bound f (.value e' c) :=
    fun e' he' f hf => Node.Codable.makes (hparts _ he' rfl) hf
  have hplace : ∀ e', (k, Node.expr e') ∈ (Node.expr e).parts true k → (Node.expr e).place? = some e' →
      ∀ f : Frame, (laid → f.depth = k) → (e'.code a l f true).Makes laid (idsOf [(k, .expr e')]) fun c code bound =>
        Coded a l code bound f (.address e' c) := fun e' he' hp f hf g =>
    (hparts _ he' rfl f hf true (fun _ => h.places _ he.has e' hp) g).mono fun _ _ hc => hc none (.inl rfl)
  cases e with
  | lit mark literal =>
    intro f hf place hplace g
    cases place with
    | true => cases hplace rfl
    | false =>
      refine (makes_literal (a := a) (l := l) (f := f) g).mono fun c g' hc v hv => ?_
      obtain rfl : v = none := by simpa using hv
      exact hc
  | name mark name =>
    refine codable_located hnodup (fun _ _ => rfl) fun f hf g => ?_
    obtain ⟨d, hd, hcategory, hvisible, j, hj, hdcode⟩ := h.exists_binding he rfl
    have haccess := fun hlaid => (hl hlaid).accesses j d hdcode (hvisible.isStorage hcategory)
    rw [meets_bind, show a.binding mark = .ok d from hd, meets_liftM, results_ok, meets_bind]
    refine meets_given (fun hlaid => ?_) fun x hx => meets_given (fun hlaid => ?_) fun c hc => ?_
    · exact (haccess hlaid).imp fun x hx => orFault_eq_ok.mpr hx.1
    · obtain ⟨x', hx', hsuits⟩ := haccess hlaid
      cases hx'.symm.trans (orFault_eq_ok.mp hx)
      exact hsuits.exists_address (hf hlaid ▸ hj) d.name mark.position
    · rw [Access.labels_address hc]
      exact (Generator.Makes.idle g).mono (by simp) (.refl _) fun _ _ _ hnoted =>
        .name (orFault_eq_ok.mp hd) (orFault_eq_ok.mp hx) hc hnoted
  | call mark name args =>
    refine codable_value hnodup (fun _ _ => rfl) rfl fun f hf g => ?_
    obtain ⟨d, hd, hcategory, -, j, hj, hdcode⟩ := h.exists_binding he rfl
    have hframe := fun hlaid => (hl hlaid).frames j d hdcode (Decl.isFunction_of_category hcategory)
    have hargs : ∀ e ∈ args, (Node.expr e).Codable a l laid k := fun e he =>
      hparts (k, .expr e) (by simpa [Node.parts] using he) rfl
    rw [meets_bind, show a.binding mark = .ok d from hd, meets_liftM, results_ok, meets_bind]
    refine meets_given (fun hlaid => ?_) fun callee hcallee => ?_
    · exact (hframe hlaid).imp fun callee hcallee => orFault_eq_ok.mpr hcallee.1
    rw [meets_bind]
    refine meets_given (fun hlaid => ?_) fun link hlink => ?_
    · obtain ⟨callee', hcallee', hsuits⟩ := hframe hlaid
      cases hcallee'.symm.trans (orFault_eq_ok.mp hcallee)
      exact Frame.exists_linkTo (by rw [hsuits.depth, hf hlaid]; omega)
    refine (meets_codes hargs hids hf g).bind fun cs g' hcs => ?_
    refine hcs.mono (List.Subset.refl _) (.of_eq ?_) fun _ _ =>
      .call (orFault_eq_ok.mp hd) (orFault_eq_ok.mp hcallee) hlink
    simp [Ir.Expr.labels, Ir.Expr.labelsAll, Frame.labels_linkTo hlink]
  | binary mark op lhs rhs =>
    refine codable_value hnodup (fun _ _ => rfl) rfl fun f hf g => ?_
    refine (hpart lhs (by simp [Node.parts]) f hf g).bind fun c₁ g₁ h₁ => ?_
    refine (hpart rhs (by simp [Node.parts]) f hf g₁).bind fun c₂ g₂ h₂ => ?_
    apply (h₁.append h₂ hids).imp
    rintro _ _ ⟨hlhs, hrhs⟩
    exact .binary hlhs hrhs
  | unary mark op operand =>
    have hoperand : (k, Node.expr operand) ∈ (Node.expr (.unary mark op operand)).parts true k := by simp [Node.parts]
    cases op with
    | plus =>
      refine codable_value hnodup (fun _ _ => rfl) rfl fun f hf g => ?_
      exact (hpart _ hoperand f hf g).mono fun c g' hc => hc.imp fun _ _ => .plus
    | minus =>
      refine codable_value hnodup (fun _ _ => rfl) rfl fun f hf g => ?_
      exact (hpart _ hoperand f hf g).bind fun c g' hc => hc.imp fun _ _ => .minus
    | not =>
      refine codable_value hnodup (fun _ _ => rfl) rfl fun f hf g => ?_
      exact (hpart _ hoperand f hf g).bind fun c g' hc => hc.imp fun _ _ => .not
    | addr =>
      refine codable_value hnodup (fun _ _ => rfl) rfl fun f hf g => ?_
      exact (hplace _ hoperand rfl f hf g).mono fun c g' hc => hc.imp fun _ _ => .addr
    | deref =>
      refine codable_located hnodup (fun _ _ => rfl) fun f hf g => ?_
      exact (hpart _ hoperand f hf g).mono fun c g' hc => hc.imp fun _ _ => .deref
  | cast mark operand type =>
    refine codable_value hnodup (fun _ _ => rfl) rfl fun f hf g => ?_
    refine (hpart operand (by simp [Node.parts]) f hf g).bind fun c g' hc => ?_
    obtain ⟨t, ht, htype⟩ := h.typings.code _ he
    rw [meets_bind, meets_liftM, Analysis.exprType, ht]
    refine hc.mono ?_ (.of_eq ?_) fun _ _ hcoded => .cast hcoded htype
    · exact idsOf_append [_] [(k, .type type)] ▸ subset_append_left _ _
    · split <;> simp [Ir.Expr.labels]
  | new mark type =>
    refine codable_value hnodup (fun _ _ => rfl) rfl fun f hf g => ?_
    obtain ⟨t, ht⟩ := h.exists_typeExprType (he.has.part (k := k) (q := (k, .type type)) (by simp [Node.parts]))
    rw [meets_bind, meets_liftM, Analysis.typeExprType, show a.typing.typeTypes[type.mark.id]? = some t from ht]
    exact (Generator.Makes.idle g).mono (by simp) (.refl _) fun _ _ _ => .new ht
  | del mark operand =>
    refine codable_value hnodup (fun _ _ => rfl) rfl fun f hf g => ?_
    refine (hpart operand (by simp [Node.parts]) f hf g).bind fun c g' hc => ?_
    exact hc.mono (List.Subset.refl _) (.of_eq (by simp [Ir.Expr.labels, Ir.Expr.labelsAll])) fun _ _ => .del
  | index mark array index =>
    refine codable_located hnodup (fun _ _ => rfl) fun f hf g => ?_
    refine (hplace array (by simp [Node.parts]) rfl f hf g).bind fun base g₁ hbase => ?_
    refine (hpart index (by simp [Node.parts]) f hf g₁).bind fun c g₂ hc => ?_
    obtain ⟨u, t, hu, helement, ht⟩ := h.typings.code _ he
    rw [meets_bind, meets_liftM, Analysis.exprBytes, Analysis.exprType, ht]
    refine (hbase.append hc hids).mono (List.Subset.refl _) (.of_eq ?_) fun _ _ h => .index h.1 h.2 hu helement
    simp [Ir.Expr.labels]
  | field mark record name =>
    refine codable_located hnodup (fun _ _ => rfl) fun f hf g => ?_
    refine (hplace record (by simp [Node.parts]) rfl f hf g).bind fun base g₁ hbase => ?_
    obtain ⟨t, fields, i, _, ht, hfields, hfind, -, hi, -⟩ := h.typings.code _ he
    rw [meets_bind, meets_liftM, Analysis.exprType, show a.typing.exprTypes[record.mark.id]? = some t from ht]
    change Meets (liftM (a.fieldIndex mark) >>= _) _ _ _
    rw [meets_bind, meets_liftM, Analysis.fieldIndex, hi]
    refine hbase.mono (List.Subset.refl _) (.of_eq ?_) fun _ _ hrecord => .field hrecord ht hfields hfind
    simp [Ir.Expr.labels]
  | block mark stmts result decls =>
    refine codable_value hnodup (fun _ _ => rfl) rfl fun f hf g => ?_
    obtain ⟨hfirst, hrest, -⟩ := @nodup_idsOf_append (decls.map _) (stmts.map _ ++ [_]) hids
    have hdecls : ∀ d ∈ decls, (Node.decl d).Codable a l laid k := fun d hd =>
      hparts (k, .decl d) (by simpa [Node.parts] using hd) rfl
    have hstmts : ∀ s ∈ stmts, (Node.stmt s).Codable a l laid k := fun s hs =>
      hparts (k, .stmt s) (by simpa [Node.parts] using hs) rfl
    refine (meets_codeBodies hdecls hfirst g).bind fun _ g₁ h₁ => ?_
    refine (meets_stmtCodes hstmts (nodup_idsOf_append hrest).1 hf g₁).bind fun cs g₂ h₂ => ?_
    refine (hpart result (by simp [Node.parts]) f hf g₂).bind fun c g₃ h₃ => ?_
    apply (h₁.append (h₂.append h₃ hrest) hids).imp
    rintro _ _ ⟨hdecls, hstmts, hresult⟩
    exact .block (hdecls f) hstmts hresult

theorem Program.Analyzed.codable_stmt (h : p.Analyzed a) {t : Stmt} (ht : p.InCode (k, .stmt t))
    (hparts : ∀ q ∈ (Node.stmt t).parts true k, q.2.isType = false → q.2.Codable a l laid q.1) :
    (Node.stmt t).Codable a l laid k := by
  intro f hf g
  have hnodup := h.formed.numbered.nodup_parts ht.has k
  have hids : (idsOf ((Node.stmt t).parts true k)).Nodup := (nodup_cons.mp hnodup).2
  have hpart : ∀ e, (k, Node.expr e) ∈ (Node.stmt t).parts true k →
      (e.code a l f false).Makes laid (idsOf [(k, .expr e)])
      fun c code bound => Coded a l code bound f (.value e c) := fun e he => Node.Codable.makes (hparts _ he rfl) hf
  cases t with
  | expr mark value =>
    rw [Stmt.code]
    refine (hpart value (by simp [Node.parts]) g).bind fun c g' hc => ?_
    exact (hc.under (n := .stmt (.expr mark value)) fun _ _ => .eval).same rfl (fun _ => ⟨rfl, rfl, rfl, rfl⟩) rfl rfl
  | assign mark dst src =>
    rw [Stmt.code]
    refine (hparts (k, .expr dst) (by simp [Node.parts]) rfl f hf true (fun _ => h.places _ ht.has dst rfl) g).bind
      fun c₁ g₁ h₁ => ?_
    rw [meets_bind, Gen.noteExpr, meets_modify]
    refine (hpart src (by simp [Node.parts]) _).bind fun c₂ g₂ h₂ => ?_
    exact (((h₁ _ (.inr ⟨rfl, rfl⟩)).append h₂ hids).under (n := .stmt (.assign mark dst src))
      fun _ _ h => .assign h.1 h.2).same rfl (fun _ => ⟨rfl, rfl, rfl, rfl⟩) rfl rfl
  | cond mark test yes no =>
    have hyes : ∀ s ∈ yes, (Node.stmt s).Codable a l laid k := fun s hs =>
      hparts (k, .stmt s) (by simpa [Node.parts] using .inl hs) rfl
    have hno : ∀ s ∈ no, (Node.stmt s).Codable a l laid k := fun s hs =>
      hparts (k, .stmt s) (by simpa [Node.parts] using .inr hs) rfl
    have hrest := nodup_idsOf_tail hids
    have hbranches := nodup_idsOf_append hrest
    rw [Stmt.code]
    refine (hpart test (by simp [Node.parts]) g).bind fun c g₁ h₁ => ?_
    rw [meets_bind, meets_label, meets_bind, meets_label, meets_bind, meets_label, meets_bind]
    have hlabels := Generator.Makes.labels₃ g₁
    refine (meets_stmtCodes hyes hbranches.1 hf _).mono fun cs g₂ h₂ => ?_
    refine (meets_stmtCodes hno hbranches.2.1 hf g₂).bind fun ds g₃ h₃ => ?_
    have hmade := h₁.append (hlabels.append (h₂.append h₃ hrest) hrest) hids
    refine ((hmade.mono (List.Subset.refl _) ?_ fun _ _ h => h).under (n := .stmt (.cond mark test yes no))
      fun _ _ h => .cond h.1 h.2.2.1 h.2.2.2 hlabels.nodup).same rfl (fun _ => ⟨rfl, rfl, rfl, rfl⟩) rfl rfl
    refine perm_iff_count.mpr fun x => ?_
    simp only [Ir.Stmt.labels, Ir.Stmt.labelsAll, count_append, count_cons, count_nil]
    omega
  | loop mark test body =>
    have hbody : ∀ s ∈ body, (Node.stmt s).Codable a l laid k := fun s hs =>
      hparts (k, .stmt s) (by simpa [Node.parts] using hs) rfl
    have hrest := nodup_idsOf_tail hids
    rw [Stmt.code]
    refine (hpart test (by simp [Node.parts]) g).bind fun c g₁ h₁ => ?_
    rw [meets_bind, meets_label, meets_bind, meets_label, meets_bind, meets_label, meets_bind]
    have hlabels := Generator.Makes.labels₃ g₁
    refine (meets_stmtCodes hbody hrest hf _).mono fun cs g₂ h₂ => ?_
    have hmade := h₁.append (hlabels.append h₂ hrest) hids
    refine ((hmade.mono (List.Subset.refl _) ?_ fun _ _ h => h).under (n := .stmt (.loop mark test body))
      fun _ _ h => .loop h.1 h.2.2 hlabels.nodup).same rfl (fun _ => ⟨rfl, rfl, rfl, rfl⟩) rfl rfl
    refine perm_iff_count.mpr fun x => ?_
    simp only [Ir.Stmt.labels, Ir.Stmt.labelsAll, count_append, count_cons, count_nil]
    omega

theorem Program.Analyzed.codable_decl (h : p.Analyzed a) (hl : laid → p.LaidOut l s) {d : Decl}
    (hd : p.InCode (k, .decl d))
    (hparts : ∀ q ∈ (Node.decl d).parts true k, q.2.isType = false → q.2.Codable a l laid q.1) :
    (Node.decl d).Codable a l laid k := by
  intro g
  have hnodup := h.formed.numbered.nodup_parts hd.has k
  cases d with
  | typed | proto => exact (Generator.Makes.idle g).mono (by simp) (.refl _) fun _ _ _ f ds hds => .noBody rfl hds
  | function mark name params result body =>
    have hbody : (Node.expr body).Codable a l laid (k + 1) := hparts (k + 1, .expr body) (by simp [Node.parts]) rfl
    rw [Decl.codeBody, meets_bind]
    refine meets_given (fun hlaid => ?_) fun f hf => ?_
    · exact ((hl hlaid).frames k _ hd rfl).imp fun f hf => orFault_eq_ok.mpr hf.1
    have hf : l.frames[mark.id]? = some f := orFault_eq_ok.mp hf
    have hdepth : laid → f.depth = k + 1 := fun hlaid => by
      obtain ⟨f', hf', hsuits⟩ := (hl hlaid).frames k _ hd rfl
      cases hf'.symm.trans hf
      exact hsuits.depth
    refine (hbody.makes hdepth g).bind fun c g' hc => ?_
    rw [idsOf_singleton k k]
    have hsubset : idsOf [(k + 1, Node.expr body)] ⊆
        idsOf ((Node.decl (.function mark name params result body)).parts true k) := by
      simp [Node.parts, idsOf]
    have hparts' := hc.bounded.mono hsubset (.refl _) fun _ _ h => h
    refine Generator.Makes.imp (hparts'.forget.note (nodup_cons.mp hnodup).1 ?_ ?_ fun hg => ?_) ?_
    · rfl
    · exact fun i hi => ⟨rfl, getElem?_note_of_ne hi, rfl, rfl⟩
    · refine (hc.draws hg).keep (o := .body mark.id) rfl ?_ ?_
      · rintro x ⟨body, hbody, hx⟩
        rw [Std.TreeMap.getElem?_insert_self] at hbody
        cases hbody
        exact hx
      · rintro (id | id) x hne hx
        · obtain ⟨body, hbody, hx⟩ := hx
          exact ⟨body, (getElem?_note_of_ne fun heq => hne (congrArg _ heq)).symm.trans hbody, hx⟩
        · exact hx
    · rintro code bound ⟨⟨hcoded, hbound⟩, -, hagrees⟩ f' ds hds
      exact .body hf (hagrees.bodies.trans Std.TreeMap.getElem?_insert_self) hc.nodup hbound hcoded hds

theorem Program.Analyzed.codable (h : p.Analyzed a) (hl : laid → p.LaidOut l s) {q : Nat × Node} (hq : p.InCode q)
    (htype : q.2.isType = false) : q.2.Codable a l laid q.1 := by
  obtain ⟨k, n⟩ := q
  induction k, n using Node.induct with
  | h k n ih =>
    have hparts : ∀ q ∈ n.parts true k, q.2.isType = false → q.2.Codable a l laid q.1 := fun q hq' htype =>
      ih q hq' (hq.part hq' htype) htype
    cases n with
    | decl d => exact h.codable_decl hl hq hparts
    | type t => trivial
    | stmt t => exact h.codable_stmt hq hparts
    | expr e => exact h.codable_expr hl hq hparts

variable (l s) in
/-- Making the code of a program fails for one that is not laid out only. -/
theorem Program.Analyzed.makes_code (h : p.Analyzed a) :
    Meets (Decl.codeBodies a l p.decls) { supply := s } (fun _ g => Generator.Makes
      (idsOf (p.decls.map fun d => (0, .decl d))) [] (fun code bound => ∀ f, Coded a l code bound f (.bodies p.decls))
      { supply := s } g) fun _ => ¬ p.LaidOut l s :=
  meets_codeBodies (fun d hd => h.codable id ⟨d, hd, .refl⟩ rfl) h.formed.numbered.nodup_decls _

theorem Generator.Makes.coded {ids : List NodeId} {P : Code → Nat → Prop} {g : Generator}
    (h : Generator.Makes ids [] P { supply := s } g) : P g.code g.supply.labels :=
  h.made g.code g.supply.labels (fun _ _ => ⟨⟨rfl, rfl⟩, .refl _ _⟩) (Nat.le_refl _)

theorem Program.Analyzed.meets_code (h : p.Analyzed a) (hl : p.LaidOut l s) :
    Meets (Decl.codeBodies a l p.decls) { supply := s } (fun _ g => g.supply.temps = s.temps ∧
      ∀ f, Coded a l g.code g.supply.labels f (.bodies p.decls)) fun _ => False :=
  (h.makes_code l s).imp (fun _ _ hmade => ⟨hmade.temps, hmade.coded⟩) fun _ hfault => hfault hl

end

section
variable {a : Analysis} {l : Layout} {code : Code} {bound : Nat} {f : Frame}

variable (a l code bound) in
/-- There is code for a node in the function with the given frame. A function has a frame of its own. -/
def Node.Covered (f : Frame) : Node → Prop
  | .decl (.function mark _ _ _ body) => ∃ g c, l.frames[mark.id]? = some g ∧ code.bodies[mark.id]? = some c ∧
      c.labels.Nodup ∧ (∀ x ∈ c.labels, ∃ n < bound, x = .fresh n) ∧ Coded a l code bound g (.value body c)
  | .stmt s => ∃ c, Coded a l code bound f (.stmt s c)
  | .expr e => ∃ c, Coded a l code bound f (.value e c) ∨ Coded a l code bound f (.address e c)
  | _ => True

theorem Coded.exists_value {es : List Expr} {cs : List Ir.Expr} (h : Coded a l code bound f (.values es cs)) :
    ∀ e ∈ es, ∃ c, Coded a l code bound f (.value e c) := by
  induction es generalizing cs with
  | nil => simp
  | cons e es ih =>
    cases h with
    | values h hs => exact forall_mem_cons.mpr ⟨⟨_, h⟩, ih hs⟩

theorem Coded.exists_stmt {ss : List Stmt} {cs : List Ir.Stmt} (h : Coded a l code bound f (.stmts ss cs)) :
    ∀ s ∈ ss, ∃ c, Coded a l code bound f (.stmt s c) := by
  induction ss generalizing cs with
  | nil => simp
  | cons s ss ih =>
    cases h with
    | stmts h hs => exact forall_mem_cons.mpr ⟨⟨_, h⟩, ih hs⟩

theorem Coded.covered_decl {ds : List Decl} (h : Coded a l code bound f (.bodies ds)) :
    ∀ d ∈ ds, (Node.decl d).Covered a l code bound f := by
  induction ds with
  | nil => simp
  | cons d ds ih =>
    cases h with
    | noBody hnone hs =>
      refine forall_mem_cons.mpr ⟨?_, ih hs⟩
      cases d with
      | typed | proto => trivial
      | function => cases hnone
    | body hframe hnoted hnodup hbound h hs =>
      exact forall_mem_cons.mpr ⟨⟨_, _, hframe, hnoted, hnodup, hbound, h⟩, ih hs⟩

section
variable {e : Expr} {c : Ir.Expr} {k : Nat}

theorem Coded.covered_of_address (h : Coded a l code bound f (.address e c)) :
    ∀ q ∈ (Node.expr e).parts true k, q.2.Covered a l code bound f := by
  cases h with
  | name => exact forall_mem_nil _
  | deref h => exact forall_mem_singleton.mpr ⟨_, .inl h⟩
  | index harray hindex =>
    exact forall_mem_cons.mpr ⟨⟨_, .inr harray⟩, forall_mem_singleton.mpr ⟨_, .inl hindex⟩⟩
  | field h => exact forall_mem_singleton.mpr ⟨_, .inr h⟩

theorem Coded.covered_of_value (h : Coded a l code bound f (.value e c)) :
    ∀ q ∈ (Node.expr e).parts true k, q.2.Covered a l code bound f := by
  cases h with
  | number | string => exact forall_mem_nil _
  | load h => exact h.covered_of_address
  | call _ _ _ hargs => exact forall_mem_map.mpr fun e he => (hargs.exists_value e he).imp fun _ => .inl
  | binary hlhs hrhs =>
    exact forall_mem_cons.mpr ⟨⟨_, .inl hlhs⟩, forall_mem_singleton.mpr ⟨_, .inl hrhs⟩⟩
  | plus h | minus h | not h | del h => exact forall_mem_singleton.mpr ⟨_, .inl h⟩
  | addr h => exact forall_mem_singleton.mpr ⟨_, .inr h⟩
  | cast h => exact forall_mem_cons.mpr ⟨⟨_, .inl h⟩, forall_mem_singleton.mpr trivial⟩
  | new => exact forall_mem_singleton.mpr trivial
  | block hdecls hstmts hresult =>
    refine forall_mem_append.mpr ⟨forall_mem_map.mpr hdecls.covered_decl, ?_⟩
    exact forall_mem_append.mpr ⟨forall_mem_map.mpr hstmts.exists_stmt,
      forall_mem_singleton.mpr ⟨_, .inl hresult⟩⟩

end

theorem Coded.covered_of_stmt {s : Stmt} {c : Ir.Stmt} {k : Nat} (h : Coded a l code bound f (.stmt s c)) :
    ∀ q ∈ (Node.stmt s).parts true k, q.2.Covered a l code bound f := by
  cases h with
  | eval h => exact forall_mem_singleton.mpr ⟨_, .inl h⟩
  | assign hdst hsrc =>
    exact forall_mem_cons.mpr ⟨⟨_, .inr hdst⟩, forall_mem_singleton.mpr ⟨_, .inl hsrc⟩⟩
  | cond htest hyes hno =>
    exact forall_mem_cons.mpr ⟨⟨_, .inl htest⟩, forall_mem_append.mpr
      ⟨forall_mem_map.mpr hyes.exists_stmt, forall_mem_map.mpr hno.exists_stmt⟩⟩
  | loop htest hbody =>
    exact forall_mem_cons.mpr ⟨⟨_, .inl htest⟩, forall_mem_map.mpr hbody.exists_stmt⟩

theorem Node.Covered.part {n : Node} (h : n.Covered a l code bound f) (hn : ∀ d, n ≠ .decl d)
    (htype : n.isType = false) {k : Nat} {q : Nat × Node} (hq : q ∈ n.parts true k) : q.2.Covered a l code bound f := by
  cases n with
  | decl d => exact absurd rfl (hn d)
  | type t => cases htype
  | stmt s =>
    obtain ⟨c, hc⟩ := h
    exact hc.covered_of_stmt q hq
  | expr e =>
    obtain ⟨c, hc | hc⟩ := h
    · exact hc.covered_of_value q hq
    · exact hc.covered_of_address q hq

theorem Decl.HasRole.covered {d : Decl} {role : Role} (h : d.HasRole role) :
    (Node.decl d).Covered a l code bound f := by
  cases d with
  | typed => trivial
  | proto | function => cases h

/-- With the code of the functions of a program there is that of every node in its code. -/
theorem Coded.covered {p : Program} (hp : p.Formed) (h : Coded a l code bound f (.bodies p.decls)) {q : Nat × Node}
    (hq : p.InCode q) : ∃ g, q.2.Covered a l code bound g := by
  obtain ⟨d, hd, hpath⟩ := hq
  induction hpath with
  | refl => exact ⟨f, h.covered_decl d hd⟩
  | @tail q r hpath hr ih =>
    obtain ⟨k, n⟩ := q
    have hn : p.InCode (k, n) := ⟨d, hd, hpath⟩
    obtain ⟨g, ih⟩ := ih
    cases n with
    | type t => cases hn.isType
    | stmt | expr => exact ⟨g, ih.part (by simp) rfl hr.1⟩
    | decl e =>
      rcases Node.leads_decl.mp hr with ⟨v, hv, rfl⟩ | ⟨body, hbody, rfl⟩
      · exact ⟨g, (hp.role_of_params hn.has hv).covered⟩
      · cases e with
        | typed | proto => cases hbody
        | function =>
          cases hbody
          obtain ⟨g', c, -, -, -, -, hbody⟩ := ih
          exact ⟨g', c, .inl hbody⟩

end

end MmixCompiler
