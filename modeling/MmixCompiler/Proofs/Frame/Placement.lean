import MmixCompiler.Proofs.Analysis
import MmixCompiler.Proofs.Frame.Functions

/-! Laying out a function of a program that has passed analysis. The only fault is a frame that is too large;
otherwise the frame is one deeper than the function's level, and its variables and parameters have places in it. -/

namespace MmixCompiler

def CompileError.TooLarge : CompileError → Prop
  | .semantic e => ∃ name, e.fault = .type (.frameTooLarge name)
  | _ => False

/-- A place for a declaration on level `k`. -/
def Access.Suits (k : Nat) (d : Decl) : Access → Prop
  | .absolute label _ => k = 0 ∧ label = .named d.name
  | .relative _ depth _ => depth = k ∧ 0 < k

/-- A frame for a function on level `k`, with temporaries out of a supply. -/
structure Frame.Suits (f : Frame) (k : Nat) (d : Decl) (s : Supply) : Prop where
  depth : f.depth = k + 1
  locals : 0 ≤ f.locals
  label : f.label = .named d.name ∨ ∃ n, f.label = .fresh n
  apart : f.fp ≠ f.rv
  fp : f.fp < s.temps
  rv : f.rv < s.temps

theorem Frame.Suits.mono {f : Frame} {k : Nat} {d : Decl} {s s' : Supply} (h : f.Suits k d s)
    (hle : s.temps ≤ s'.temps) : f.Suits k d s' :=
  { h with fp := Nat.lt_of_lt_of_le h.fp hle, rv := Nat.lt_of_lt_of_le h.rv hle }

section
variable {p : Program} {a : Analysis} {k : Nat} {d : Decl}

theorem Program.Analyzed.results_declBytes (h : p.Analyzed a) (hd : p.Has (.decl d)) :
    Results (a.declBytes d) (0 ≤ ·) CompileError.TooLarge := by
  obtain ⟨b, hb, hle⟩ := h.exists_declBytes hd
  rw [hb]
  exact hle

theorem Program.Analyzed.own (h : p.Analyzed a) (hd : p.InCode (k, .decl d)) {n : Node} (hn : .enter n ∈ d.ownWalk) :
    p.InCode (k + 1, n) ∨ n.Inert ∨ ∃ e, n = .decl e ∧ e.HasRole .parameter := by
  obtain ⟨_, s, hs, -⟩ := h.typings.resolved
  cases d with
  | typed | proto => cases hn
  | function mark name params result body =>
    have hbody : p.InCode (k + 1, .expr body) := hd.part (by simp [Node.parts]) rfl
    exact hbody.own h.formed hs hn

theorem Program.Analyzed.inCode_of_locals (h : p.Analyzed a) (hd : p.InCode (k, .decl d)) {v : Decl}
    (hv : v ∈ d.locals) : p.InCode (k + 1, .decl v) := by
  obtain ⟨w, hw, heq⟩ := List.mem_filterMap.mp hv
  split at heq
  · cases heq
    rcases h.own hd hw with hcode | hinert | ⟨e, heq, hrole⟩
    · exact hcode
    · cases hinert
    · cases heq
      cases hrole
  · cases heq

theorem Program.InCode.param (hd : p.InCode (k, .decl d)) {v : Decl} (hv : v ∈ d.params) :
    p.InCode (k + 1, .decl v) := by
  refine hd.part ?_ rfl
  cases d with
  | typed => cases hv
  | proto | function => simpa [Node.parts, Decl.params] using hv

theorem Program.Analyzed.inCode_of_ownExprs (h : p.Analyzed a) (hd : p.InCode (k, .decl d)) {e : Expr}
    (he : e ∈ d.ownExprs) (hconstant : ¬ ∃ n, e.constant = .ok n) : p.InCode (k + 1, .expr e) := by
  obtain ⟨w, hw, heq⟩ := List.mem_filterMap.mp he
  split at heq
  · cases heq
    rcases h.own hd hw with hcode | hinert | ⟨_, heq, -⟩
    · exact hcode
    · exact absurd hinert hconstant
    · cases heq
  · cases heq

theorem Program.Analyzed.results_argBytes (h : p.Analyzed a) (hd : p.InCode (k, .decl d)) {e : Expr}
    (he : e ∈ d.ownExprs) : Results (a.argBytes e) (fun _ => True) CompileError.TooLarge := by
  unfold Analysis.argBytes
  split
  · next mark name args =>
    have hcall : p.InCode (k + 1, .expr (.call mark name args)) :=
      h.inCode_of_ownExprs hd he (not_exists.mpr fun _ hconstant => by cases hconstant)
    have hargs : Results (args.foldlM (fun total e => return total + (← a.exprBytes e.mark)) Word.size)
        (fun _ => True) CompileError.TooLarge := by
      refine results_foldlM (fun e he total _ => ?_) trivial
      have hcode : p.InCode (k + 1, .expr e) := hcall.part (by simpa [Node.parts] using he) rfl
      obtain ⟨b, hb, -⟩ := h.exists_exprBytes hcode
      rw [hb]
      trivial
    rw [results_bind]
    refine hargs.mono fun bytes _ => ?_
    obtain ⟨f, hf, -, -, j, -, hfcode⟩ := h.exists_binding hcall rfl
    obtain ⟨t, ht⟩ := h.exists_declType hfcode.has
    rw [show a.binding mark = .ok f from hf, results_bind, results_ok, results_bind, Analysis.declType, ht]
    trivial
  · trivial
  · trivial
  · trivial

theorem Program.Analyzed.results_placeLocals (h : p.Analyzed a) (function : Decl) (depth : Nat) {ds : List Decl}
    (hds : ∀ d ∈ ds, p.Has (.decl d)) (total : Int) :
    Results (a.placeLocals function depth total ds)
      (fun r => total ≤ r.1 ∧ r.2.map Prod.fst = ds.map Decl.id ∧ ∀ x ∈ r.2, ∃ offset b, x.2 = .relative offset depth b)
      CompileError.TooLarge := by
  induction ds generalizing total with
  | nil => exact ⟨Int.le_refl _, rfl, by simp⟩
  | cons d ds ih =>
    rw [Analysis.placeLocals, results_bind]
    refine (h.results_declBytes (hds d List.mem_cons_self)).mono fun b hb => ?_
    split
    · exact ⟨_, rfl⟩
    · next total' htotal =>
      obtain ⟨-, rfl⟩ := Word.checked_eq_some_iff.mp htotal
      rw [results_bind]
      apply (ih (fun d hd => hds d (List.mem_cons_of_mem _ hd)) _).mono
      rintro ⟨all, places⟩ ⟨hle, hids, hplaces⟩
      refine ⟨?_, by simpa using hids, List.forall_mem_cons.mpr ⟨⟨_, _, rfl⟩, hplaces⟩⟩
      dsimp only at hle ⊢
      omega

theorem Program.Analyzed.results_placeParams (h : p.Analyzed a) (depth : Nat) {ds : List Decl}
    (hds : ∀ d ∈ ds, p.Has (.decl d)) (offset : Int) :
    Results (a.placeParams depth offset ds)
      (fun r => r.map Prod.fst = ds.map Decl.id ∧ ∀ x ∈ r, ∃ offset b, x.2 = .relative offset depth b)
      CompileError.TooLarge := by
  induction ds generalizing offset with
  | nil => exact ⟨rfl, by simp⟩
  | cons d ds ih =>
    rw [Analysis.placeParams, results_bind]
    refine (h.results_declBytes (hds d List.mem_cons_self)).mono fun b _ => ?_
    dsimp only
    rw [results_bind]
    apply (ih (fun d hd => hds d (List.mem_cons_of_mem _ hd)) _).mono
    rintro places ⟨hids, hplaces⟩
    exact ⟨by simpa using hids, List.forall_mem_cons.mpr ⟨⟨_, _, rfl⟩, hplaces⟩⟩

theorem Program.Analyzed.results_frame (h : p.Analyzed a) (hd : p.InCode (k, .decl d)) (s : Supply) :
    Results (a.frame (k + 1) d s) (fun r => r.1.Suits k d r.2.2 ∧ s.temps ≤ r.2.2.temps ∧
        r.2.1.map Prod.fst = (d.locals ++ d.params).map Decl.id ∧
        ∀ x ∈ r.2.1, ∃ offset b, x.2 = .relative offset (k + 1) b)
      CompileError.TooLarge := by
  rw [Analysis.frame, results_bind]
  refine (results_foldlM (I := fun _ => True) (fun e he most _ => ?_) trivial).mono fun args _ => ?_
  · rw [results_bind]
    exact (h.results_argBytes hd he).mono fun b _ => trivial
  rw [results_bind]
  apply (h.results_placeLocals d (k + 1) (fun v hv => (h.inCode_of_locals hd hv).has) 0).mono
  rintro ⟨locals, localPlaces⟩ ⟨hlocals, hlocalIds, hlocalPlaces⟩
  dsimp only at hlocals hlocalIds hlocalPlaces ⊢
  rw [results_bind]
  apply (h.results_placeParams (k + 1) (fun v hv => (hd.param hv).has) 0).mono
  rintro paramPlaces ⟨hparamIds, hparamPlaces⟩
  split
  · exact ⟨_, rfl⟩
  · refine ⟨?_, ?_, by simp [hlocalIds, hparamIds], fun x hx => ?_⟩
    · split
      · exact ⟨rfl, hlocals, .inl rfl, Nat.ne_of_lt (Nat.lt_succ_self _), Nat.lt_succ_of_lt (Nat.lt_succ_self _),
          Nat.lt_succ_self _⟩
      · exact ⟨rfl, hlocals, .inr ⟨_, rfl⟩, Nat.ne_of_lt (Nat.lt_succ_self _), Nat.lt_succ_of_lt (Nat.lt_succ_self _),
          Nat.lt_succ_self _⟩
    · split <;> exact Nat.le_add_right _ 2
    · exact (List.mem_append.mp hx).elim (hlocalPlaces x) (hparamPlaces x)

end

section
variable {α : Type} {table : Std.TreeMap NodeId α} {entries : List (NodeId × α)} {i id : NodeId} {x y : α}

theorem mem_of_insert (h : (table.insert i y)[id]? = some x) : i ≠ id ∧ table[id]? = some x ∨ i = id ∧ x = y := by
  rw [Std.TreeMap.getElem?_insert] at h
  split at h
  · next heq => exact .inr ⟨Nat.compare_eq_eq.mp heq, (Option.some.inj h).symm⟩
  · next hne => exact .inl ⟨fun heq => hne (Nat.compare_eq_eq.mpr heq), h⟩

theorem isSome_insert (h : table[id]?.isSome ∨ i = id) : (table.insert i y)[id]?.isSome := by
  rw [Std.TreeMap.getElem?_insert]
  split
  · rfl
  · next hne => exact h.resolve_right fun heq => hne (Nat.compare_eq_eq.mpr heq)

theorem mem_of_insertMany (h : (table.insertMany entries)[id]? = some x) : table[id]? = some x ∨ (id, x) ∈ entries := by
  induction entries generalizing table with
  | nil => exact .inl h
  | cons e entries ih =>
    rw [Std.TreeMap.insertMany_cons] at h
    rcases ih h with h | h
    · rcases mem_of_insert h with ⟨-, h⟩ | ⟨rfl, rfl⟩
      · exact .inl h
      · exact .inr List.mem_cons_self
    · exact .inr (List.mem_cons_of_mem _ h)

theorem isSome_insertMany (h : table[id]?.isSome ∨ id ∈ entries.map Prod.fst) :
    (table.insertMany entries)[id]?.isSome := by
  induction entries generalizing table with
  | nil => simpa using h
  | cons e entries ih =>
    rw [Std.TreeMap.insertMany_cons]
    rw [List.map_cons, List.mem_cons] at h
    rcases h with h | rfl | h
    · exact ih (.inl (isSome_insert (.inl h)))
    · exact ih (.inl (isSome_insert (.inr rfl)))
    · exact ih (.inr h)

end

namespace Planner

/-- What is laid out suits the declarations. -/
structure Sound (p : Program) (s : Planner) : Prop where
  frames : ∀ (id : NodeId) f, s.layout.frames[id]? = some f →
    ∃ k d, p.InCode (k, .decl d) ∧ d.id = id ∧ f.Suits k d s.supply
  accesses : ∀ (id : NodeId) x, s.layout.accesses[id]? = some x →
    ∃ k d, p.InCode (k, .decl d) ∧ d.id = id ∧ x.Suits k d

structure Grows (s s' : Planner) : Prop where
  frames : ∀ id : NodeId, s.layout.frames[id]?.isSome → s'.layout.frames[id]?.isSome
  accesses : ∀ id : NodeId, s.layout.accesses[id]?.isSome → s'.layout.accesses[id]?.isSome

theorem Grows.refl (s : Planner) : s.Grows s := ⟨fun _ h => h, fun _ h => h⟩

theorem Grows.trans {s s' s'' : Planner} (h : s.Grows s') (h' : s'.Grows s'') : s.Grows s'' :=
  ⟨fun id hid => h'.frames id (h.frames id hid), fun id hid => h'.accesses id (h.accesses id hid)⟩

def Covers (d : Decl) (s : Planner) : Prop :=
  s.layout.frames[d.id]?.isSome ∧ ∀ v ∈ d.locals ++ d.params, s.layout.accesses[v.id]?.isSome

theorem Covers.mono {s s' : Planner} {d : Decl} (h : Covers d s) (hgrows : s.Grows s') : Covers d s' :=
  ⟨hgrows.frames _ h.1, fun v hv => hgrows.accesses _ (h.2 v hv)⟩

end Planner

section
variable {p : Program} {a : Analysis} {s : Planner}

theorem Program.Analyzed.meets_planFunction (h : p.Analyzed a) {k : Nat} {d : Decl} (hd : p.InCode (k, .decl d))
    (hs : s.Sound p) : Meets (a.planFunction (k + 1) d) s (fun _ s' => s'.Sound p ∧ s.Grows s' ∧
      Planner.Covers d s') CompileError.TooLarge := by
  rw [Analysis.planFunction, meets_bind, meets_get, meets_bind, meets_liftM]
  apply (h.results_frame hd s.supply).mono
  rintro ⟨f, places, supply⟩ ⟨hf, hle, hids, hplaces⟩
  dsimp only at hf hle hids hplaces ⊢
  rw [meets_set]
  have hplaced : ∀ x ∈ places, ∃ v ∈ d.locals ++ d.params, v.id = x.1 := fun x hx =>
    List.mem_map.mp (hids ▸ List.mem_map_of_mem hx)
  have hbelow : ∀ v ∈ d.locals ++ d.params, p.InCode (k + 1, .decl v) := fun v hv =>
    (List.mem_append.mp hv).elim (h.inCode_of_locals hd) hd.param
  refine ⟨⟨fun id f' hf' => ?_, fun id x hx => ?_⟩, ⟨fun id hid => isSome_insert (.inl hid), fun id hid =>
    isSome_insertMany (.inl hid)⟩, isSome_insert (.inr rfl), fun v hv => isSome_insertMany (.inr ?_)⟩
  · rcases mem_of_insert hf' with ⟨-, hf'⟩ | ⟨rfl, rfl⟩
    · obtain ⟨j, e, he, heid, hsuits⟩ := hs.frames id f' hf'
      exact ⟨j, e, he, heid, hsuits.mono hle⟩
    · exact ⟨k, d, hd, rfl, hf⟩
  · rcases mem_of_insertMany hx with hx | hx
    · exact hs.accesses id x hx
    · obtain ⟨offset, b, hrel⟩ := hplaces _ hx
      obtain ⟨v, hv, hid⟩ := hplaced _ hx
      dsimp only at hrel hid
      subst hrel
      exact ⟨k + 1, v, hbelow v hv, hid, rfl, Nat.succ_pos k⟩
  · rw [hids]
    exact List.mem_map_of_mem hv

end

end MmixCompiler
