import MmixCompiler.Proofs.Ir.Generating

/-! What generation records of the expressions in function bodies. An address is recorded of exactly those that denote
places in memory, and if the word there is recorded too, it is the word at that address; of all others there is a
value. -/

namespace MmixCompiler

section
variable {p : Program} {a : Analysis} {l : Layout} {code : Code} {bound k : Nat} {f : Frame} {e : Expr} {c : Ir.Expr}

theorem Program.Analyzed.hasAddress (h : p.Analyzed a) (he : p.InCode (k, .expr e))
    (hc : Coded a l code bound f (.address e c)) : e.isPlace a.bindings ∧ code.HasAddress e.mark c := by
  cases hc with
  | @name _ mark _ _ _ _ _ _ _ hnoted =>
    obtain ⟨d, hd, hcategory, hvisible, -⟩ := h.exists_binding he rfl
    refine ⟨?_, hnoted⟩
    rw [Expr.isPlace, show a.bindings[mark.id]? = some d from orFault_eq_ok.mp hd]
    exact hvisible.isStorage hcategory
  | deref _ hnoted => exact ⟨rfl, hnoted⟩
  | index _ _ _ _ hnoted => exact ⟨rfl, hnoted⟩
  | field _ _ _ _ hnoted => exact ⟨rfl, hnoted⟩

theorem Coded.hasValue (hc : Coded a l code bound f (.value e c)) :
    (∃ c', Coded a l code bound f (.address e c')) ∨ e.isPlace a.bindings = false ∧ code.HasValue e.mark c := by
  cases hc with
  | load h => exact .inl ⟨_, h⟩
  | number _ hnoted | string _ hnoted | call _ _ _ _ hnoted | binary _ _ hnoted | plus _ hnoted | minus _ hnoted
  | not _ hnoted | addr _ hnoted | cast _ _ hnoted | new _ hnoted | del _ hnoted | block _ _ _ hnoted =>
    exact .inr ⟨rfl, hnoted⟩

theorem Program.Analyzed.recorded (h : p.Analyzed a) (hcoded : ∀ f, Coded a l code bound f (.bodies p.decls))
    (he : p.InCode (k, .expr e)) : e.isPlace a.bindings = true ∧ (∃ c, code.HasAddress e.mark c) ∨
      e.isPlace a.bindings = false ∧ ∃ c, code.HasValue e.mark c := by
  have haddress : ∀ f c, Coded a l code bound f (.address e c) → e.isPlace a.bindings = true ∧
      ∃ c, code.HasAddress e.mark c :=
    fun f c hc => (h.hasAddress he hc).imp_right fun hnoted => ⟨c, hnoted⟩
  obtain ⟨f, c, hc | hc⟩ := (hcoded ⟨.fresh 0, 0, 0, 0, 0, 0⟩).covered h.formed he
  · obtain ⟨c', hc'⟩ | ⟨hnone, hnoted⟩ := hc.hasValue
    · exact .inl (haddress f c' hc')
    · exact .inr ⟨hnone, c, hnoted⟩
  · exact .inl (haddress f c hc)

end

namespace Program
variable {p : Program} {a : Analysis}

theorem mem_places {b : Bindings} {places : Std.TreeSet NodeId} (h : p.places b = .ok places) {id : NodeId} :
    id ∈ places ↔ ∃ e, p.Has (.expr e) ∧ e.isPlace b ∧ e.id = id := by
  have hfold := foldlM_iff (R := (id ∈ ·)) (S := fun v => ∃ e, v = .leave (.expr e) ∧ e.isPlace b ∧ e.id = id) ?_ h
  · rw [hfold]
    simp [leave_mem_walk, Has]
  intro start v next hnext
  cases v with
  | enter n =>
    cases hnext
    simp
  | leave n =>
    have hkept : (∀ e, n = .expr e → next = if e.isPlace b then start.insert e.id else start) ∧
        ((∀ e, n ≠ .expr e) → next = start) := by
      dsimp only at hnext
      split at hnext
      · split at hnext
        · cases n <;> cases hnext <;> simp
        · cases hnext
      · cases n <;> cases hnext <;> simp
    cases n with
    | decl | type | stmt => simp [hkept.2]
    | expr e => by_cases hplace : e.isPlace b <;> simp [hkept.1 e rfl, hplace, or_comm]

theorem places_of_analyze (h : p.analyze = .ok a) : p.places a.bindings = .ok a.places := by
  simp only [analyze, bind_eq_ok] at h
  obtain ⟨bindings, -, typing, -, places, hplaces, heq⟩ := h
  cases heq
  exact hplaces

/-- Addresses and values agree. In the code of a program, an address is recorded of exactly the expressions that
analysis takes for places; if a value is recorded of such an expression, it is the word at the address; and of any other
a value is recorded. What has to be a place is one. -/
theorem code_records {src : String} (hp : (Program.parse src).1 = .ok p) (ha : p.analyze = .ok a)
    {l : Layout} {s : Supply} {g : Generator} (hcode : p.code a l s = (.ok (), g)) :
    (∀ k e, p.InCode (k, .expr e) →
      (e.id ∈ a.places ↔ e.id ∈ g.code.addresses) ∧
      (∀ x, g.code.addresses[e.id]? = some x → ∀ v, g.code.exprs[e.id]? = some v → v = .mem x) ∧
      (e.id ∉ a.places → e.id ∈ g.code.exprs)) ∧
    ∀ n e, p.Has n → n.place? = some e → e.id ∈ a.places := by
  have h : p.Analyzed a := (formed_parse hp).analyzed ha
  have hplaces : ∀ {e}, p.Has (.expr e) → (e.id ∈ a.places ↔ e.isPlace a.bindings) := fun {e} he => by
    rw [mem_places (places_of_analyze ha)]
    constructor
    · rintro ⟨e', he', hplace, hid⟩
      cases h.formed.numbered.eq_of_id he' he hid
      exact hplace
    · exact fun hplace => ⟨e, he, hplace, rfl⟩
  have hcoded : ∀ f, Coded a l g.code g.supply.labels f (.bodies p.decls) := ((h.makes_code l s).of_gives hcode).coded
  refine ⟨fun k e he => ?_, fun n e hn hplace => ?_⟩
  · have hid : e.id = e.mark.id := rfl
    rw [hplaces he.has, Std.TreeMap.mem_iff_isSome_getElem?, Std.TreeMap.mem_iff_isSome_getElem?, hid]
    obtain ⟨hplace, c, haddress, hword⟩ | ⟨hnone, c, haddress, hvalue⟩ := h.recorded hcoded he
    · refine ⟨by simp [hplace, haddress], fun x hx v hv => ?_, fun hnone => absurd hplace hnone⟩
      cases haddress.symm.trans hx
      exact hword v hv
    · refine ⟨by simp [hnone, haddress], fun x hx => ?_, fun _ => by simp [hvalue]⟩
      cases haddress.symm.trans hx
  · obtain ⟨k, hpart⟩ : ∃ k, (k, Node.expr e) ∈ n.parts true 0 := by
      unfold Node.place? at hplace
      split at hplace <;> simp_all [Node.parts]
    exact (hplaces (hn.part hpart)).mpr (h.places n hn e hplace)

def swapping : String :=
  "var g: arr[2] rec(n: int); fun f(p: ptr int): int = \x7b g[1].n = @p; p = $g[0].n; : f(p) \x7d;"

/-- Of places that are only on the way to others, and of those after `$`, the address is recorded but no word. -/
theorem swapping_recorded : ∃ p a l s g, (Program.parse swapping).1 = .ok p ∧ p.analyze = .ok a ∧
    p.code a l s = (.ok (), g) ∧ g.code.addresses.keys = [10, 12, 13, 14, 15, 17, 18, 20, 21, 24] ∧
    g.code.exprs.keys = [11, 13, 14, 15, 17, 19, 22, 24, 25, 26] ∧
    ∀ k e, p.InCode (k, .expr e) → (e.id ∈ a.places ↔ e.id ∈ g.code.addresses) := by
  have h : ((Program.parse swapping).1.toOption.bind fun p => p.analyze.toOption.bind fun a =>
      let planner := (p.layout a {}).2
      (p.code a planner.layout planner.supply).1.toOption.map fun _ =>
        let g := (p.code a planner.layout planner.supply).2
        (g.code.addresses.keys, g.code.exprs.keys)) =
      some ([10, 12, 13, 14, 15, 17, 18, 20, 21, 24], [11, 13, 14, 15, 17, 19, 22, 24, 25, 26]) := by
    rw [swapping, parse_ofList]
    decide +kernel
  simp only [Option.bind_eq_some_iff, Option.map_eq_some_iff, toOption_eq_some] at h
  obtain ⟨p, hp, a, ha, _, hc, heq⟩ := h
  obtain ⟨haddresses, hexprs⟩ := Prod.mk.inj heq
  have hcode := code_records hp ha (Prod.ext hc rfl)
  exact ⟨p, a, _, _, _, hp, ha, Prod.ext hc rfl, haddresses, hexprs, fun k e he => (hcode.1 k e he).1⟩

end Program

end MmixCompiler
