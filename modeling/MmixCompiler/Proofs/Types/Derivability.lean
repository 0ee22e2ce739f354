import MmixCompiler.Proofs.Types.Checking

/-! Typing decides the typing rules. A program whose types are resolved is accepted if and only if its function
bodies follow from the rules and its signatures are of the allowed forms; the tables then hold the types that
the rules give. -/

namespace MmixCompiler

namespace Program

variable {p : Program} {b : Bindings} {s : Typer} {t : Typing}

theorem typing_eq_ok_iff (hresolve : (p.resolveTypes b).run {} = .ok ((), s)) :
    p.typing b = .ok t ↔ ∃ s', (p.checkTypes b).run s = .ok ((), s') ∧ s'.typing = t := by
  have hrun : (do p.resolveTypes b; p.checkTypes b : Infer Unit).run {} = (p.checkTypes b).run s := by
    rw [StateT.run_bind, hresolve]
    rfl
  simp only [Program.typing, hrun, bind_eq_ok]
  constructor
  · rintro ⟨⟨⟨⟩, s'⟩, hcheck, heq⟩
    exact ⟨s', hcheck, Except.ok.inj heq⟩
  · rintro ⟨s', hcheck, rfl⟩
    exact ⟨((), s'), hcheck, rfl⟩

/-- The position noted for a component is that of its name in the record that the rules give. -/
theorem Typings.component (ht : p.Typings t) (hjudged : ∀ q, p.InCode q → q.2.Judged b t) {k : Nat} {mark : Mark}
    {record : Expr} {name : String} (h : p.InCode (k, .expr (.field mark record name))) :
    ∃ v fields i, Judgement.Holds b (.value record v) ∧ v.Unfolds b (.record fields) ∧
      fields.findIdx? (fun f => f.1 = name) = some i ∧ t.fieldIndices[mark.id]? = some i := by
  have hrecord : p.InCode (k, .expr record) := h.part (List.mem_singleton_self _) rfl
  obtain ⟨a, fields, i, e, ha, hfields, hi, -, hindex, -⟩ := ht.code _ h
  obtain ⟨a', v, ha', hv, hrep⟩ := hjudged _ hrecord
  cases ha.symm.trans ha'
  obtain ⟨fs, hfs, hcomponents⟩ := hrep.of_fields? hfields
  obtain ⟨hsame, -⟩ := lookup_of_forall₂ hcomponents name
  exact ⟨v, fs, i, hv, hfs, hsame.trans hi, hindex⟩

/-- A program that is bound and whose types are resolved is accepted by typing if and only if it is well typed by
the rules. If it is, every expression in its code has a type by the rules, no other one, and the type noted for it
has the same unfolding; and the position noted for a component is that of its name. -/
theorem typing_follows_rules {src : String} (hparse : (Program.parse src).1 = .ok p) (hbind : p.bind = .ok b)
    (hresolve : (p.resolveTypes b).run {} = .ok ((), s)) :
    ((∃ t, p.typing b = .ok t) ↔ p.WellTyped b) ∧
    ∀ t, p.typing b = .ok t →
      (∀ k e, p.InCode (k, .expr e) → ∃ a u, t.exprTypes[e.id]? = some a ∧ Judgement.Holds b (.value e u) ∧
        (∀ v, Judgement.Holds b (.value e v) → v = u) ∧ t.registry.Represents b u a) ∧
      ∀ k mark record name, p.InCode (k, .expr (.field mark record name)) →
        ∃ v fields i, Judgement.Holds b (.value record v) ∧ v.Unfolds b (.record fields) ∧
          fields.findIdx? (fun f => f.1 = name) = some i ∧ t.fieldIndices[mark.id]? = some i := by
  obtain ⟨-, hcheck⟩ := ((formed_parse hparse).yields_typing hbind).of_run hresolve
  refine ⟨⟨?_, fun hwell => ?_⟩, fun t ht => ?_⟩
  · rintro ⟨t, ht⟩
    obtain ⟨s', hrun, -⟩ := (typing_eq_ok_iff hresolve).mp ht
    exact (hcheck.of_run hrun).2.1
  · cases hrun : (p.checkTypes b).run s with
    | ok r => exact ⟨_, (typing_eq_ok_iff hresolve).mpr ⟨r.2, hrun, rfl⟩⟩
    | error e => exact absurd hwell (hcheck.of_error hrun).2
  · obtain ⟨s', hrun, rfl⟩ := (typing_eq_ok_iff hresolve).mp ht
    obtain ⟨htypings, -, hjudged⟩ := hcheck.of_run hrun
    refine ⟨fun k e he => ?_, fun k mark record name h => htypings.component hjudged h⟩
    obtain ⟨a, u, ha, hu, hrep⟩ := hjudged _ he
    exact ⟨a, u, ha, hu, fun v hv => hv.unique hu, hrep⟩

/-- A list, a pointer to a record of the same form, and a nested function that uses both. -/
def recursiveLists : String :=
  "typ list: rec(value: int, next: ptr list); var head: ptr rec(item: int, rest: ptr list); " ++
    "fun main(n: int): int = \x7b push(n); : (@head).item where " ++
    "fun push(v: int): void = \x7b c = new(list); (@c).value = v; (@c).next = head; head = c; : none where " ++
    "var c: ptr list; \x7d; \x7d;"

/-- A sum of a number and a character. -/
def mixedSum : String := "fun f(): int = 1 + 'a';"

/-- Records are told apart by their forms and not by names, so that the lists are well typed; the sum is not. -/
theorem recursiveLists_wellTyped : (∃ p b s, (Program.parse recursiveLists).1 = .ok p ∧ p.bind = .ok b ∧
      (p.resolveTypes b).run {} = .ok ((), s) ∧ p.WellTyped b) ∧
    ∃ p b s, (Program.parse mixedSum).1 = .ok p ∧ p.bind = .ok b ∧
      (p.resolveTypes b).run {} = .ok ((), s) ∧ ¬ p.WellTyped b := by
  constructor
  · have h : ((Program.parse recursiveLists).1.toOption.bind fun p => p.bind.toOption.bind fun b =>
        ((p.resolveTypes b).run {}).toOption.map fun _ => (p.typing b).toOption.isSome) = some true := by
      unfold recursiveLists
      rw [← String.ofList_append, ← String.ofList_append, ← String.ofList_append, parse_ofList]
      decide +kernel
    simp only [Option.bind_eq_some_iff, Option.map_eq_some_iff, toOption_eq_some] at h
    obtain ⟨p, hp, b, hb, ⟨⟨⟩, s⟩, hs, ht⟩ := h
    obtain ⟨t, ht⟩ := Option.isSome_iff_exists.mp ht
    exact ⟨p, b, s, hp, hb, hs, (typing_follows_rules hp hb hs).1.mp ⟨t, toOption_eq_some.mp ht⟩⟩
  · have h : ((Program.parse mixedSum).1.toOption.bind fun p => p.bind.toOption.bind fun b =>
        ((p.resolveTypes b).run {}).toOption.map fun _ => (p.typing b).toOption.isSome) = some false := by
      decide +kernel
    simp only [Option.bind_eq_some_iff, Option.map_eq_some_iff, toOption_eq_some] at h
    obtain ⟨p, hp, b, hb, ⟨⟨⟩, s⟩, hs, ht⟩ := h
    refine ⟨p, b, s, hp, hb, hs, fun hwell => ?_⟩
    obtain ⟨t, heq⟩ := (typing_follows_rules hp hb hs).1.mpr hwell
    rw [toOption_eq_some.mpr heq] at ht
    cases ht

end Program
end MmixCompiler
