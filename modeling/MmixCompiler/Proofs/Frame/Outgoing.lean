import MmixCompiler.Proofs.Frame.Words
import MmixCompiler.Proofs.Ir.Calls
import MmixCompiler.Proofs.Mmix.ArgumentArea

/-! The area for arguments. A frame has as many words for arguments as the largest call in the code of its function
has, and that code stores at the stack pointer only there. -/

namespace MmixCompiler

open Ir Mmix Fresh

theorem foldlM_eq_ok {α β ε : Type} {f : β → α → Except ε β} {g : β → α → β} {xs : List α}
    (h : ∀ x ∈ xs, ∀ y, f y x = .ok (g y x)) (y : β) : xs.foldlM f y = .ok (xs.foldl g y) := by
  induction xs generalizing y with
  | nil => rfl
  | cons x xs ih =>
    obtain ⟨hx, hxs⟩ := List.forall_mem_cons.mp h
    rw [List.foldlM_cons, hx]
    exact ih hxs (g y x)

theorem foldl_add_const {α : Type} (xs : List α) (n total : Int) :
    xs.foldl (fun total _ => total + n) total = total + n * xs.length := by
  induction xs generalizing total with
  | nil => simp
  | cons x xs ih =>
    rw [List.foldl_cons, ih, List.length_cons]
    grind

/-- The largest of some numbers, or zero if there are none. -/
def largest (ns : List Nat) : Nat := ns.max?.getD 0

theorem largest_eq_foldl (ns : List Nat) : largest ns = ns.foldl max 0 := by
  cases ns with
  | nil => rfl
  | cons n ns => rw [largest, List.max?_cons', Option.getD_some, List.foldl_cons, Nat.zero_max]

theorem largest_eq_of_perm {ns ms : List Nat} (h : ns.Perm ms) : largest ns = largest ms := by
  rw [largest_eq_foldl, largest_eq_foldl]
  exact h.foldl_eq 0

theorem le_largest {n : Nat} {ns : List Nat} (h : n ∈ ns) : n ≤ largest ns := by
  obtain ⟨m, hm⟩ := Option.isSome_iff_exists.mp (List.isSome_max?_of_mem h)
  rw [largest, hm, Option.getD_some]
  exact (List.max?_eq_some_iff.mp hm).2 n h

theorem foldl_arity (es : List MmixCompiler.Expr) (n : Nat) :
    es.foldl (fun most e => max most (Word.size * (e.arity?.getD 0 : Nat))) (Word.size * n) =
      Word.size * ((es.filterMap Expr.arity?).foldl max n : Nat) := by
  induction es generalizing n with
  | nil => rfl
  | cons e es ih =>
    have hmax : max (Word.size * n) (Word.size * (e.arity?.getD 0 : Nat)) =
        Word.size * (max n (e.arity?.getD 0) : Nat) := by
      unfold Word.size
      omega
    rw [List.foldl_cons, hmax, ih, List.filterMap_cons]
    cases e.arity? with
    | none => simp
    | some m => rfl

section
variable {p : Program} {a : Analysis} {k : Nat} {d : Decl}

theorem Program.Formed.argBytes_eq (hp : p.Formed) (h : p.analyze = .ok a) (hd : p.InCode (k, .decl d))
    {e : MmixCompiler.Expr} (he : e ∈ d.ownExprs) : a.argBytes e = .ok (Word.size * (e.arity?.getD 0 : Nat)) := by
  have hanalyzed := hp.analyzed h
  cases e with
  | call mark name args =>
    have hcall : p.InCode (k + 1, .expr (.call mark name args)) :=
      hanalyzed.inCode_of_ownExprs hd he (not_exists.mpr fun _ hconstant => by cases hconstant)
    have hargs : args.foldlM (fun total e => return total + (← a.exprBytes e.mark)) Word.size =
        .ok (Word.size * (args.length + 1 : Nat)) := by
      rw [foldlM_eq_ok (g := fun total _ => total + Word.size), foldl_add_const]
      · exact congrArg Except.ok (by grind)
      · intro e he total
        rw [hp.exprBytes_argument h hcall he]
        rfl
    obtain ⟨f, hf, hcategory, -, j, -, hfcode⟩ := hanalyzed.exists_binding hcall rfl
    obtain ⟨t, ht⟩ := hanalyzed.exists_declType hfcode.has
    have htype : a.declType f = .ok t := orFault_eq_ok.mpr ht
    have hresult := hanalyzed.bytes_result hfcode.has (Decl.isFunction_of_category hcategory) htype
    rw [Analysis.argBytes, hargs, show a.binding mark = .ok f from hf]
    refine bind_eq_ok.mpr ⟨_, rfl, bind_eq_ok.mpr ⟨_, rfl, bind_eq_ok.mpr ⟨t, htype, congrArg Except.ok ?_⟩⟩⟩
    split
    · rfl
    · next hvoid =>
      rw [hresult.resolve_left hvoid]
      exact max_eq_left (by unfold Word.size; omega)
  | _ => rfl

theorem Decl.filterMap_ownExprs {mark : Mark} {name : String} {params : List Decl} {result : TypeExpr}
    {body : MmixCompiler.Expr} :
    (Decl.function mark name params result body).ownExprs.filterMap Expr.arity? = (Node.expr body).arities := by
  rw [Decl.ownExprs, Node.arities, entered, List.filterMap_filterMap, List.filterMap_filterMap]
  refine List.filterMap_congr fun v _ => ?_
  cases v with
  | enter n => cases n <;> rfl
  | leave => rfl

end

/-- An area for arguments as large as the calls of a chunk need. -/
structure CodeChunk.Outgoing (c : CodeChunk) : Prop where
  /-- It has a word for each argument of the largest call. -/
  size : c.frame.args = Word.size * (largest (Stmt.callsAll c.stmts) : Nat)
  /-- Whatever the code does, it stores at the stack pointer only in this area, and the stack pointer stays. -/
  stores : ∀ kept s, ∃ lines s', Gives (Stmt.selectAll kept c.stmts) s lines s' ∧
    ∀ w start k core, Reaches w lines (0, start) (k, core) → core.regs .sp = start.regs .sp ∧
      ∀ src offset, lines[k]? = some (.op (.store src .sp offset)) →
        ∃ i : Nat, offset.word core = .ofNat 64 i ∧ i + Word.size ≤ c.frame.args

section
variable {x : Lowering} {src : String} {d : Decl × MmixCompiler.Expr} {s s' : Supply} {c : CodeChunk}

theorem Lowering.Makes.args_eq (hx : x.Of src) (h : x.Makes d s c s') (hd : d ∈ x.program.bodies) :
    c.frame.args = Word.size * (largest (Node.expr d.2).arities : Nat) := by
  obtain ⟨d, body⟩ := d
  obtain ⟨hhas, hbody⟩ := Program.mem_bodies.mp hd
  obtain ⟨φ, e, hid, hrecords⟩ := (hx.analyzed.planned hx.layout).frames _ _ h.frame
  obtain rfl : e = d := Node.decl.inj (hx.formed.numbered.eq_of_id hrecords.code.has hhas hid)
  obtain ⟨s₁, s₂, places, hframes, -⟩ := hrecords.frame
  have hargs := hframes.args
  rw [foldlM_eq_ok (g := fun most e => max most (Word.size * (e.arity?.getD 0 : Nat)))] at hargs
  · cases e with
    | typed | proto => cases hbody
    | function =>
      cases hbody
      rw [largest_eq_foldl, ← Decl.filterMap_ownExprs, ← foldl_arity]
      exact (Except.ok.inj hargs).symm
  · intro e he most
    rw [hx.formed.argBytes_eq hx.analyze hrecords.code he]
    rfl

theorem Lowering.Makes.size_outgoing (hx : x.Of src) (h : x.Makes d s c s') (hd : d ∈ x.program.bodies) :
    c.frame.args = Word.size * (largest (Stmt.callsAll c.stmts) : Nat) := by
  obtain ⟨body, -, hcoded, -, hgives⟩ := h.body
  have hperm := hcoded.calls_perm hx.analyzed (List.forall_mem_singleton.mpr (Program.has_body hd))
  rw [Translation.nodes, List.flatMap_singleton] at hperm
  rw [h.args_eq hx hd, Frame.calls_chunk hgives, largest_eq_of_perm hperm.symm]
  rfl

theorem Lowering.Makes.outgoing (hx : x.Of src) (h : x.Makes d s c s') (hd : d ∈ x.program.bodies) : c.Outgoing := by
  have hsize := h.size_outgoing hx hd
  refine ⟨hsize, fun kept s₁ => ?_⟩
  have hcanonical := h.fit.1.canonical
  obtain ⟨blocks, s₂, hblocks⟩ := exists_gives_mapM (fun st hst => exists_select (hcanonical.forms st hst) kept) s₁
  have hchosen := chosen_of_mapM hblocks (Nat.zero_le _)
  have hcalls : ∀ st ∈ c.stmts, st.CallsWithin (largest (Stmt.callsAll c.stmts)) := by
    rintro _ hst dst l args rfl
    refine le_largest (Stmt.mem_callsAll.mpr ⟨_, hst, ?_⟩)
    simp [Stmt.calls, Expr.calls]
  refine ⟨blocks.flatten, s₂, gives_bind.mpr ⟨blocks, s₂, hblocks, gives_pure.mpr ⟨rfl, rfl⟩⟩, ?_⟩
  intro w start k core hreaches
  obtain ⟨hsp, hguarded⟩ := guarded_of_reaches hchosen hcalls hreaches
  refine ⟨hsp, fun src offset hline => ?_⟩
  obtain ⟨hlt, hget⟩ := List.getElem?_eq_some_iff.mp hline
  dsimp only at hguarded
  rw [List.drop_eq_getElem_cons hlt, hget] at hguarded
  obtain ⟨i, hi, hoffset⟩ := hguarded.1 src offset rfl
  refine ⟨i * 8, hoffset, ?_⟩
  rw [hsize, Word.size]
  omega

end

/-- The area for arguments of every function is exactly what its code needs. -/
theorem outgoing_area_exact {x : Lowering} {src : String} (h : x.Of src) :
    List.Forall₂ (fun d c => x.planner.layout.frames[d.1.id]? = some c.frame ∧ c.Outgoing)
      x.program.bodies x.chunks.code := by
  have hmade := h.threaded.imp (I := fun _ => True) trivial
    (fun d hd _ _ _ _ hmakes => ⟨trivial, And.intro hmakes.frame (hmakes.outgoing h hd)⟩)
  apply hmade.1.related.imp
  rintro _ _ ⟨_, _, hchunk⟩
  exact hchunk

theorem nestedFunctions_outgoing : ∃ x : Lowering, x.Of nestedFunctions ∧ x.chunks.code.length = 2 ∧
    ∀ c ∈ x.chunks.code, c.Outgoing := by
  obtain ⟨c, hc⟩ := exists_compile_nestedFunctions
  obtain ⟨x, hx, -⟩ := exists_stages hc
  refine ⟨x.lowering, hx.lowering, hx.lowering.length_nestedFunctions, fun c hc => ?_⟩
  obtain ⟨d, -, -, houtgoing⟩ := exists_left_of_forall₂ (outgoing_area_exact hx.lowering) hc
  exact houtgoing

end MmixCompiler
