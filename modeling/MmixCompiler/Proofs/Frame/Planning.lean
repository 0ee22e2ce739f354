import Mathlib.Data.List.Flatten
import MmixCompiler.Proofs.Frame.Placement
import MmixCompiler.Proofs.Tree.Nesting

/-! A finished layout has a frame for every function and a place for every variable: the frame that was made for
the function, and the places that came with it. Later functions take other temporaries and labels from the supply,
and their variables have other numbers; so nothing of it is lost. -/

namespace MmixCompiler

open List

variable {n : Node} {φ : List Decl} {d : Decl} {a : Analysis} {depth : Nat} {f : Frame}
variable {places : List (NodeId × Access)}

namespace Node

theorem entered_walk_sublist (n : Node) : (entered (n.walk false)).Sublist n.nodes := by
  induction (0 : Nat), n using induct with
  | h k n ih =>
    rw [nodes, walk_eq false k, walk_eq true k, entered_around, entered_around, entered_flatMap, entered_flatMap]
    refine .cons_cons _ (((parts_false_sublist k n).flatMap _).trans (.flatMap_right _ fun q hq => ?_))
    exact ih q hq

theorem parts_false_of_ne_decl (hn : ∀ d, n ≠ .decl d) (k : Nat) : n.parts false k = n.parts true k := by
  cases n with
  | decl d => exact absurd rfl (hn d)
  | type t => cases t <;> rfl
  | stmt s => cases s <;> rfl
  | expr e => cases e <;> rfl

theorem mem_entered_self (n : Node) : n ∈ entered (n.walk false) := by
  rw [walk_eq false 0, entered_around]
  exact mem_cons_self

theorem mem_entered_of_parts {m : Node} (hm : m ∈ entered (n.walk false)) {j : Nat} {q : Nat × Node}
    (hq : q ∈ m.parts false j) : q.2 ∈ entered (n.walk false) := by
  induction (0 : Nat), n using induct with
  | h k n ih =>
    rw [walk_eq false k, entered_around, entered_flatMap, mem_cons] at hm ⊢
    right
    rcases hm with rfl | hm
    · obtain ⟨i, hi⟩ := exists_mem_parts hq k
      exact mem_flatMap.mpr ⟨_, hi, mem_entered_self q.2⟩
    · obtain ⟨r, hr, hm⟩ := mem_flatMap.mp hm
      exact mem_flatMap.mpr ⟨r, hr, ih r (parts_false_subset k n hr) hm⟩

end Node

namespace Program

variable {p : Program}

theorem exists_nest {q : Nat × Node} (h : q ∈ p.levels) : ∃ φ, φ.length = q.1 ∧ (φ, q.2) ∈ p.nests := by
  obtain ⟨r, hr, rfl⟩ := mem_map.mp (p.map_nests ▸ h)
  exact ⟨r.1, rfl, hr⟩

theorem Numbered.nest_unique (hp : p.Numbered) {ψ : List Decl} {e : Decl} (hd : (φ, .decl d) ∈ p.nests)
    (he : (ψ, .decl e) ∈ p.nests) (hid : d.id = e.id) : φ = ψ ∧ d = e := by
  have heq : Node.decl d = .decl e := hp.eq_of_id ⟨_, mem_levels_of_nests hd⟩ ⟨_, mem_levels_of_nests he⟩ hid
  cases heq
  exact ⟨hp.nest_eq hd he, rfl⟩

theorem nest_suffix {m : Node} (hn : (φ, n) ∈ p.nests) (hm : m ∈ n.nodes) : ∃ ψ, (ψ, m) ∈ p.nests ∧ φ <:+ ψ := by
  induction φ, n using Node.nests_induct with
  | h φ n ih =>
    rw [Node.nodes, Node.entered_walk φ.length, mem_map] at hm
    obtain ⟨q, hq, rfl⟩ := hm
    rcases Node.mem_levels.mp hq with rfl | ⟨r, hr, hq⟩
    · exact ⟨φ, hn, suffix_refl φ⟩
    · obtain ⟨t, ht, rfl⟩ := mem_map.mp (Node.map_nestedParts φ n ▸ hr)
      have hmem : q.2 ∈ t.2.nodes := by
        rw [Node.nodes, Node.entered_walk t.1.length]
        exact mem_map_of_mem hq
      obtain ⟨ψ, hψ, hsuffix⟩ := ih t ht (nestedParts_subset hn ht) hmem
      refine ⟨ψ, hψ, List.IsSuffix.trans ?_ hsuffix⟩
      cases n with
      | decl f =>
        rcases Node.mem_nestedParts_decl.mp ht with ⟨d, -, rfl⟩ | rfl | ⟨e, -, rfl⟩
        · exact suffix_cons f φ
        · exact suffix_refl φ
        · exact suffix_cons f φ
      | type | stmt | expr =>
        rw [Node.nest_of_ne_decl (by simp) ht]

theorem Analyzed.nest_variable (h : p.Analyzed a) (hd : (φ, .decl d) ∈ p.nests)
    (hcode : p.InCode (φ.length, .decl d)) {v : Decl} (hv : v ∈ d.locals ++ d.params) :
    (d :: φ, .decl v) ∈ p.nests := by
  rcases mem_append.mp hv with hv | hv
  · have hlevel := (h.inCode_of_locals hcode hv).mem_levels
    obtain ⟨w, hw, heq⟩ := mem_filterMap.mp hv
    split at heq
    · cases heq
      cases d with
      | typed | proto => cases hw
      | function fmark fname params result body =>
        have hbody : (_ :: φ, .expr body) ∈ p.nests :=
          nestedParts_subset hd (Node.mem_nestedParts_decl.mpr (.inr (.inr ⟨body, rfl, rfl⟩)))
        obtain ⟨ψ, hψ, hsuffix⟩ := nest_suffix hbody (Node.mem_nodes_of_walk (n := .expr body) hw)
        have hlen := congrArg Prod.fst (h.formed.numbered.eq (mem_levels_of_nests hψ) hlevel rfl)
        rwa [hsuffix.eq_of_length hlen.symm]
    · cases heq
  · exact nestedParts_subset hd (Node.mem_nestedParts_decl.mpr (.inl ⟨v, hv, rfl⟩))

/-- What stands in a function is one of its parameters, or the walk of its body enters it. -/
theorem Analyzed.own_of_nest (h : p.Analyzed a) (hn : (d :: φ, n) ∈ p.nests)
    (hinert : ¬n.Inert) : (∃ v ∈ d.params, n = .decl v) ∨ .enter n ∈ d.ownWalk := by
  obtain ⟨_, s, hs, -⟩ := h.typings.resolved
  refine (nests_induct (P := fun ψ n => ∀ d φ, ψ = d :: φ → n.Inert ∨ (∃ v ∈ d.params, n = .decl v) ∨
    .enter n ∈ d.ownWalk) (fun _ _ _ _ heq => by cases heq) ?_ hn d φ rfl).resolve_left hinert
  intro ψ m hm ih q hq d φ heq
  cases m with
  | type t =>
    exact .inl (Node.Inert.part h.formed hs ⟨_, mem_levels_of_nests hm⟩ trivial
      (Node.mem_parts_of_nestedParts hq))
  | stmt | expr =>
    have hpart := Node.mem_parts_of_nestedParts hq
    rw [Node.nest_of_ne_decl (by simp) hq] at heq
    rcases ih d φ heq with hinert | ⟨v, -, hv⟩ | hown
    · exact .inl (Node.Inert.part h.formed hs ⟨_, mem_levels_of_nests hm⟩ hinert hpart)
    · cases hv
    · cases d with
      | typed | proto => cases hown
      | function mark name params result body =>
        rw [← Node.parts_false_of_ne_decl (by simp)] at hpart
        have hentered := Node.mem_entered_of_parts (n := .expr body) (mem_entered.mpr hown) hpart
        exact .inr (.inr (mem_entered.mp hentered))
  | decl g =>
    rcases Node.mem_nestedParts_decl.mp hq with ⟨v, hv, rfl⟩ | rfl | ⟨e, he, rfl⟩
    · cases heq
      exact .inr (.inl ⟨v, hv, rfl⟩)
    · exact .inl trivial
    · cases heq
      refine .inr (.inr ?_)
      rw [Decl.ownWalk, he]
      exact mem_entered.mp (Node.mem_entered_self (.expr e))

/-- The variables of a function are those that stand in it and in no function within it. -/
theorem Analyzed.mem_locals_iff (h : p.Analyzed a) (hd : (φ, .decl d) ∈ p.nests)
    (hcode : p.InCode (φ.length, .decl d)) {v : Decl} :
    v ∈ d.locals ↔ v.HasRole .variable ∧ (d :: φ, .decl v) ∈ p.nests := by
  constructor
  · intro hv
    refine ⟨?_, h.nest_variable hd hcode (mem_append_left _ hv)⟩
    obtain ⟨w, -, heq⟩ := mem_filterMap.mp hv
    split at heq
    · cases heq
      exact rfl
    · cases heq
  · rintro ⟨hrole, hv⟩
    have hinert : ¬(Node.decl v).Inert := fun hcomponent => by
      cases v with
      | typed => cases hrole.symm.trans hcomponent
      | proto | function => exact hrole
    rcases h.own_of_nest hv hinert with ⟨u, hu, heq⟩ | hown
    · -- a parameter is no variable
      cases heq
      have hparam := h.formed.role_of_params hcode.has hu
      cases v with
      | typed => cases hrole.symm.trans hparam
      | proto | function => exact hrole.elim
    · refine mem_filterMap.mpr ⟨_, hown, ?_⟩
      cases v with
      | typed mark role name type =>
        obtain rfl : role = .variable := hrole
        rfl
      | proto | function => exact hrole.elim

end Program

theorem Decl.locals_sublist (d : Decl) : (d.locals.map Node.decl).Sublist (entered d.ownWalk) := by
  rw [locals]
  induction d.ownWalk with
  | nil => exact .refl _
  | cons v vs ih =>
    cases v with
    | leave n => exact ih
    | enter n =>
      rw [filterMap_cons]
      split
      · exact ih.cons n
      · next heq =>
        split at heq
        · next mark name type hv =>
          cases heq
          cases hv
          exact ih.cons_cons _
        · cases heq

theorem Program.Numbered.nodup_variables {p : Program} (hp : p.Numbered) (hd : p.Has (.decl d)) :
    ((d.locals ++ d.params).map Decl.id).Nodup := by
  have hnodup := (nodup_cons.mp (hp.nodup_parts hd 0)).2
  have hparams : ∀ params : List Decl, (params.map Decl.id).Sublist (idsOf (params.map fun d => (1, .decl d))) := by
    intro params
    rw [idsOf, flatMap_map]
    induction params with
    | nil => exact .refl _
    | cons d params ih =>
      rw [flatMap_cons, map_append]
      refine List.Sublist.append (singleton_sublist.mpr ?_) ih
      exact mem_map.mpr ⟨_, Node.mem_nodes_self _, rfl⟩
  rw [map_append]
  refine (perm_append_comm.nodup_iff).mp ?_
  cases d with
  | typed => exact nodup_nil
  | proto mark name params result =>
    have hsub : (params.map Decl.id ++ []).Sublist
        (idsOf ((Node.decl (.proto mark name params result)).parts true 0)) := by
      rw [Node.parts, idsOf_append]
      exact (hparams params).append (nil_sublist _)
    exact hsub.nodup hnodup
  | function mark name params result body =>
    refine List.Sublist.nodup ?_ hnodup
    rw [Node.parts, idsOf_append]
    refine (hparams params).append ?_
    have hlocals := ((Decl.function mark name params result body).locals_sublist.trans
      (Node.entered_walk_sublist (.expr body))).map Node.id
    rw [map_map] at hlocals
    refine hlocals.trans ?_
    simp [idsOf]

/-- A frame, the places that come with it, and what it took from a supply. -/
structure Analysis.Frames (a : Analysis) (depth : Nat) (d : Decl) (s : Supply) (f : Frame)
    (places : List (NodeId × Access)) (s' : Supply) : Prop where
  args : d.ownExprs.foldlM (fun most e => return max most (← a.argBytes e)) 0 = .ok f.args
  places : ∃ localPlaces paramPlaces, a.placeLocals d depth 0 d.locals = .ok (f.locals, localPlaces) ∧
    a.placeParams depth 0 d.params = .ok paramPlaces ∧ places = localPlaces ++ paramPlaces
  small : (Word.checked (f.locals + f.args)).isSome ∧ (Word.checked (f.locals + f.args + Frame.overhead)).isSome
  depth : f.depth = depth
  fp : f.fp = s.temps
  rv : f.rv = s.temps + 1
  temps : s'.temps = s.temps + 2
  label : f.label = .named d.name ∧ s'.labels = s.labels ∨ f.label = .fresh s.labels ∧ s'.labels = s.labels + 1
  named : f.label = .named d.name ↔ f.depth = 1 ∨ d.body?.isNone

theorem Analysis.frames_of_frame {s s' : Supply} (h : a.frame depth d s = .ok (f, places, s')) :
    a.Frames depth d s f places s' := by
  simp only [Analysis.frame, bind_eq_ok] at h
  obtain ⟨args, hargs, ⟨locals, localPlaces⟩, hlocals, paramPlaces, hparams, h⟩ := h
  split at h
  · cases h
  · next hsmall =>
    simp only [not_or, Option.isNone_iff_eq_none, ← ne_eq, Option.ne_none_iff_isSome] at hsmall
    split at h
    · next hnamed =>
      cases h
      exact ⟨hargs, ⟨_, _, hlocals, hparams, rfl⟩, hsmall, rfl, rfl, rfl, rfl, .inl ⟨rfl, rfl⟩, iff_of_true rfl hnamed⟩
    · next hfresh =>
      cases h
      exact ⟨hargs, ⟨_, _, hlocals, hparams, rfl⟩, hsmall, rfl, rfl, rfl, rfl, .inr ⟨rfl, rfl⟩,
        iff_of_false (by simp [Frame.make, Supply.label]) hfresh⟩

theorem Analysis.Frames.ids {p : Program} {s s' : Supply} {k : Nat} (hf : a.Frames (k + 1) d s f places s')
    (h : p.Analyzed a) (hd : p.InCode (k, .decl d)) : places.map Prod.fst = (d.locals ++ d.params).map Decl.id := by
  obtain ⟨localPlaces, paramPlaces, hlocals, hparams, rfl⟩ := hf.places
  have hlocalIds := h.results_placeLocals d (k + 1) (fun v hv => (h.inCode_of_locals hd hv).has) 0
  have hparamIds := h.results_placeParams (k + 1) (fun v hv => (hd.param hv).has) 0
  rw [hlocals, results_ok] at hlocalIds
  rw [hparams, results_ok] at hparamIds
  rw [map_append, map_append, hlocalIds.2.1, hparamIds.1]

theorem getElem?_insertMany_of_mem {α : Type} {table : Std.TreeMap NodeId α} {entries : List (NodeId × α)}
    (h : (entries.map Prod.fst).Nodup) {e : NodeId × α}
    (he : e ∈ entries) : (table.insertMany entries)[e.1]? = some e.2 := by
  refine Std.TreeMap.getElem?_insertMany_list_of_mem (Nat.compare_eq_eq.mpr rfl) ?_ he
  exact (pairwise_map.mp h).imp fun hne heq => hne (Nat.compare_eq_eq.mp heq)

theorem getElem?_insertMany_of_notMem {α : Type} {table : Std.TreeMap NodeId α}
    {entries : List (NodeId × α)} {id : NodeId}
    (h : id ∉ entries.map Prod.fst) : (table.insertMany entries)[id]? = table[id]? :=
  Std.TreeMap.getElem?_insertMany_list_of_contains_eq_false (by simpa using h)

structure Planner.Records (p : Program) (a : Analysis) (φ : List Decl) (d : Decl) (f : Frame)
    (pl : Planner) : Prop where
  nest : (φ, .decl d) ∈ p.nests
  code : p.InCode (φ.length, .decl d)
  function : d.isFunction
  frame : ∃ s s' places, a.Frames (φ.length + 1) d s f places s' ∧ s'.temps ≤ pl.supply.temps ∧
    s'.labels ≤ pl.supply.labels ∧ ∀ e ∈ places, pl.layout.accesses[e.1]? = some e.2

/-- Every frame was made for a function, and no two have a temporary or a fresh label in common. What has an address
of its own is a variable at the top. -/
structure Planner.Planned (p : Program) (a : Analysis) (pl : Planner) : Prop where
  frames : ∀ (id : NodeId) f, pl.layout.frames[id]? = some f → ∃ φ d, d.id = id ∧ pl.Records p a φ d f
  apart : ∀ (id id' : NodeId) f f', pl.layout.frames[id]? = some f → pl.layout.frames[id']? = some f' → id ≠ id' →
    List.Disjoint [f.fp, f.rv] [f'.fp, f'.rv]
  labels : ∀ (id id' : NodeId) f f' n, pl.layout.frames[id]? = some f → pl.layout.frames[id']? = some f' →
    f.label = .fresh n → f'.label = .fresh n → id = id'
  globals : ∀ (id : NodeId) label size, pl.layout.accesses[id]? = some (.absolute label size) →
    ∃ d : Decl, d ∈ p.decls ∧ d.id = id ∧ d.HasRole .variable ∧ label = .named d.name ∧ a.declBytes d = .ok size

section
variable {p : Program} {a : Analysis} {s : Planner}

theorem Planner.Records.below (h : s.Records p a φ d f) : f.fp < s.supply.temps ∧ f.rv < s.supply.temps := by
  obtain ⟨s₁, s₂, places, hframes, htemps, -⟩ := h.frame
  rw [hframes.temps] at htemps
  rw [hframes.fp, hframes.rv]
  exact ⟨Nat.lt_of_succ_lt htemps, htemps⟩

theorem Planner.Records.label_lt (h : s.Records p a φ d f) {n : Nat}
    (hn : f.label = .fresh n) : n < s.supply.labels := by
  obtain ⟨s₁, s₂, places, hframes, -, hlabels, -⟩ := h.frame
  rcases hframes.label with ⟨hlabel, -⟩ | ⟨hlabel, heq⟩
  · cases hn.symm.trans hlabel
  · cases hn.symm.trans hlabel
    omega

theorem Planner.Records.mono {s' : Planner} (h : s.Records p a φ d f) (hp : p.Analyzed a)
    (htemps : s.supply.temps ≤ s'.supply.temps) (hlabels : s.supply.labels ≤ s'.supply.labels)
    (haccesses : ∀ v ∈ d.locals ++ d.params, ∀ x, s.layout.accesses[v.id]? = some x →
      s'.layout.accesses[v.id]? = some x) :
    s'.Records p a φ d f := by
  obtain ⟨s₁, s₂, places, hframes, htemps', hlabels', hplaces⟩ := h.frame
  refine ⟨h.nest, h.code, h.function, s₁, s₂, places, hframes, Nat.le_trans htemps' htemps,
    Nat.le_trans hlabels' hlabels, ?_⟩
  intro e he
  obtain ⟨v, hv, hid⟩ := mem_map.mp (hframes.ids hp h.code ▸ mem_map_of_mem he)
  rw [← hid]
  exact haccesses v hv _ (hid ▸ hplaces e he)

theorem Program.Analyzed.planned_planFunction (h : p.Analyzed a) (hd : (φ, .decl d) ∈ p.nests)
    (hcode : p.InCode (φ.length, .decl d)) (hfunction : d.isFunction) (hs : s.Planned p a) :
    Meets (a.planFunction (φ.length + 1) d) s (fun _ s' => s'.Planned p a) fun _ => True := by
  rw [Analysis.planFunction, meets_bind, meets_get, meets_bind, meets_liftM]
  cases hframe : a.frame (φ.length + 1) d s.supply with
  | error e => trivial
  | ok r =>
    obtain ⟨f, places, supply⟩ := r
    rw [results_ok, meets_set]
    have hframes := Analysis.frames_of_frame hframe
    have htemps : s.supply.temps ≤ supply.temps := by rw [hframes.temps]; omega
    have hlabels : s.supply.labels ≤ supply.labels := by
      rcases hframes.label with ⟨-, heq⟩ | ⟨-, heq⟩ <;> omega
    have hids := hframes.ids h hcode
    have hnodup : (places.map Prod.fst).Nodup := hids ▸ h.formed.numbered.nodup_variables hcode.has
    have hkeep : ∀ ψ e g, s.Records p a ψ e g → e.id ≠ d.id → Planner.Records p a ψ e g ⟨supply,
        { frames := s.layout.frames.insert d.id f, accesses := s.layout.accesses.insertMany places }⟩ := by
      intro ψ e g hrecords hne
      refine hrecords.mono h htemps hlabels fun v hv x hx => ?_
      dsimp only
      rw [getElem?_insertMany_of_notMem]
      · exact hx
      -- a variable stands in one function only
      intro hmem
      rw [hids] at hmem
      obtain ⟨w, hw, hid⟩ := mem_map.mp hmem
      have hv' := h.nest_variable hrecords.nest hrecords.code hv
      obtain ⟨heq, -⟩ := h.formed.numbered.nest_unique (h.nest_variable hd hcode hw) hv' hid
      cases heq
      exact hne rfl
    have hold : ∀ (id : NodeId) g, s.layout.frames[id]? = some g → g.fp < s.supply.temps ∧ g.rv < s.supply.temps := by
      intro id g hg
      obtain ⟨ψ, e, -, hrecords⟩ := hs.frames id g hg
      exact hrecords.below
    have hnew : ∀ (id : NodeId) g, s.layout.frames[id]? = some g → List.Disjoint [f.fp, f.rv] [g.fp, g.rv] := by
      intro id g hg
      have hfresh : ∀ t : Nat, t < s.supply.temps → t ≠ s.supply.temps ∧ t ≠ s.supply.temps + 1 := by omega
      have hfp := hfresh g.fp (hold id g hg).1
      have hrv := hfresh g.rv (hold id g hg).2
      simp [hframes.fp, hframes.rv, hfp, hrv]
    have hlabel : ∀ (id : NodeId) g n, s.layout.frames[id]? = some g → g.label = .fresh n → f.label ≠ .fresh n := by
      intro id g n hg hn hf
      obtain ⟨ψ, e, -, hrecords⟩ := hs.frames id g hg
      rcases hframes.label with ⟨heq, -⟩ | ⟨heq, -⟩
      · cases hf.symm.trans heq
      · cases hf.symm.trans heq
        exact Nat.lt_irrefl _ (hrecords.label_lt hn)
    refine ⟨fun id g hg => ?_, fun id id' g g' hg hg' hne => ?_, fun id id' g g' n hg hg' hn hn' => ?_,
      fun id label size hx => ?_⟩
    · rcases mem_of_insert hg with ⟨hid, hg⟩ | ⟨rfl, rfl⟩
      · obtain ⟨ψ, e, rfl, hrecords⟩ := hs.frames id g hg
        exact ⟨ψ, e, rfl, hkeep ψ e g hrecords hid.symm⟩
      · exact ⟨φ, d, rfl, hd, hcode, hfunction, s.supply, supply, places, hframes, Nat.le_refl _, Nat.le_refl _,
          fun e he => getElem?_insertMany_of_mem hnodup he⟩
    · rcases mem_of_insert hg with ⟨-, hold⟩ | ⟨rfl, rfl⟩ <;> rcases mem_of_insert hg' with ⟨-, hold'⟩ | ⟨rfl, rfl⟩
      · exact hs.apart id id' g g' hold hold' hne
      · exact (hnew id g hold).symm
      · exact hnew id' g' hold'
      · exact absurd rfl hne
    · rcases mem_of_insert hg with ⟨-, hold⟩ | ⟨rfl, rfl⟩ <;> rcases mem_of_insert hg' with ⟨-, hold'⟩ | ⟨rfl, rfl⟩
      · exact hs.labels id id' g g' n hold hold' hn hn'
      · exact absurd hn' (hlabel id g n hold hn)
      · exact absurd hn (hlabel id' g' n hold' hn')
      · rfl
    · rcases mem_of_insertMany hx with hx | hx
      · exact hs.globals id label size hx
      · -- the variables of a function are in its frame
        have hplaced := h.results_frame hcode s.supply
        rw [hframe] at hplaced
        obtain ⟨_, _, heq⟩ := hplaced.2.2.2 _ hx
        cases heq

/-- What laying out a declaration at the top achieves. -/
def Planner.CoversAll (d : Decl) (s : Planner) : Prop :=
  (∀ x ∈ d.functions 1, Covers x.2 s) ∧ (d.HasRole .variable → s.layout.accesses[d.id]?.isSome)

theorem Program.Analyzed.meets_planDecl (h : p.Analyzed a) (hd : d ∈ p.decls) (hs : s.Sound p ∧ s.Planned p a) :
    Meets (a.planDecl d) s (fun _ s' => (s'.Sound p ∧ s'.Planned p a) ∧ s.Grows s' ∧ Planner.CoversAll d s')
      CompileError.TooLarge := by
  have hcode : p.InCode (0, .decl d) := ⟨d, hd, .refl⟩
  unfold Analysis.planDecl
  split
  · next mark name type =>
    obtain ⟨b, hbytes, -⟩ := h.exists_declBytes hcode.has
    rw [meets_bind, meets_liftM, hbytes, results_ok, meets_modify]
    refine ⟨⟨⟨hs.1.frames, fun id x hx => ?_⟩, fun id f hf => ?_, hs.2.apart, hs.2.labels, fun id label size hx => ?_⟩,
      ⟨fun _ h => h, fun id hid => isSome_insert (.inl hid)⟩, by simp [Decl.functions], fun _ =>
        isSome_insert (.inr rfl)⟩
    · rcases mem_of_insert hx with ⟨-, hx⟩ | ⟨hid, rfl⟩
      · exact hs.1.accesses id x hx
      · exact ⟨0, _, hcode, hid, rfl, rfl⟩
    · obtain ⟨φ, e, hid, hrecords⟩ := hs.2.frames id f hf
      refine ⟨φ, e, hid, hrecords.mono h (Nat.le_refl _) (Nat.le_refl _) fun v hv x hx => ?_⟩
      dsimp only
      rw [Std.TreeMap.getElem?_insert, if_neg]
      · exact hx
      -- the variable is at the top and the other one stands in a function
      intro heq
      have hv' := h.nest_variable hrecords.nest hrecords.code hv
      obtain ⟨hnest, -⟩ := h.formed.numbered.nest_unique (Program.mem_nests_decl hd) hv' (Nat.compare_eq_eq.mp heq)
      cases hnest
    · rcases mem_of_insert hx with ⟨-, hx⟩ | ⟨hid, heq⟩
      · exact hs.2.globals id label size hx
      · cases heq
        exact ⟨_, hd, hid, rfl, rfl, hbytes⟩
  · next hother =>
    refine (meets_forM (I := fun s => s.Sound p ∧ s.Planned p a) (C := fun x => Planner.Covers x.2) Planner.Grows.refl
      (fun _ _ _ => Planner.Grows.trans) (fun _ _ _ => Planner.Covers.mono) (fun x hx s hs => ?_) hs).mono
      fun _ s' hs' => ⟨hs'.1, hs'.2.1, hs'.2.2, fun hrole => ?_⟩
    · obtain ⟨j, hj, hfcode, hfunction⟩ := hcode.of_functions h.formed rfl hx
      obtain ⟨φ, rfl, hnest⟩ := Program.exists_nest hfcode.mem_levels
      obtain ⟨depth, f⟩ := x
      obtain rfl : depth = φ.length + 1 := hj
      exact ((h.meets_planFunction hfcode hs.1).and (h.planned_planFunction hnest hfcode hfunction hs.2)).mono
        fun _ s' h => ⟨⟨h.1.1, h.2⟩, h.1.2⟩
    · cases d with
      | typed mark role name type =>
        obtain rfl : role = .variable := hrole
        exact absurd rfl (hother _ _ _)
      | proto | function => exact hrole.elim

/-- What a layout has for a program. -/
structure Program.LaidOut (p : Program) (l : Layout) (s : Supply) : Prop where
  frames : ∀ k d, p.InCode (k, .decl d) → d.isFunction → ∃ f, l.frames[d.id]? = some f ∧ f.Suits k d s
  accesses : ∀ k d, p.InCode (k, .decl d) → d.isStorage → ∃ x, l.accesses[d.id]? = some x ∧ x.Suits k d
  sound : Planner.Sound p ⟨s, l⟩

theorem Program.LaidOut.mono {l : Layout} {s s' : Supply} (h : p.LaidOut l s) (hle : s.temps ≤ s'.temps) :
    p.LaidOut l s' where
  frames k d hd hfunction := (h.frames k d hd hfunction).imp fun _ hf => ⟨hf.1, hf.2.mono hle⟩
  accesses := h.accesses
  sound := by
    refine ⟨fun id f hf => ?_, h.sound.accesses⟩
    obtain ⟨k, d, hd, hid, hsuits⟩ := h.sound.frames id f hf
    exact ⟨k, d, hd, hid, hsuits.mono hle⟩

/-- Laying out a program fails for frames that are too large only. -/
theorem Program.Analyzed.meets_plan (h : p.Analyzed a) :
    Meets (p.plan a) { supply := {} } (fun _ s => p.LaidOut s.layout s.supply ∧ s.Planned p a)
      CompileError.TooLarge := by
  refine (meets_forM (I := fun s => s.Sound p ∧ s.Planned p a) (C := Planner.CoversAll) Planner.Grows.refl
    (fun _ _ _ => Planner.Grows.trans)
    (fun d _ _ hd hgrows => ⟨fun x hx => (hd.1 x hx).mono hgrows, fun hrole => hgrows.accesses _ (hd.2 hrole)⟩)
    (fun d hd s hs => h.meets_planDecl hd hs) ⟨⟨by simp, by simp⟩, by simp, by simp, by simp, by simp⟩).mono ?_
  rintro _ s ⟨⟨hs, hplanned⟩, _, hcovers⟩
  have hfunctions : ∀ k d, p.InCode (k, .decl d) → d.isFunction → Planner.Covers d s := fun k d hd hfunction => by
    have hmem := (Program.mem_functionsAll h.formed).mpr ⟨k, rfl, hd, hfunction⟩
    rw [Decl.functionsAll_eq, mem_flatMap] at hmem
    obtain ⟨e, he, hmem⟩ := hmem
    exact (hcovers e he).1 _ hmem
  have hstorage : ∀ k d, p.InCode (k, .decl d) → d.isStorage → s.layout.accesses[d.id]?.isSome := by
    intro k d hd hstorage
    cases d with
    | proto | function => cases hstorage
    | typed mark role name type =>
      cases k with
      | zero =>
        obtain ⟨e, he, heq⟩ := hd.top
        cases heq
        have hdeclared : role = .variable ∨ role = .type := h.formed.declared _ he
        obtain rfl | rfl := hdeclared
        · exact (hcovers _ he).2 rfl
        · cases hstorage
      | succ k =>
        obtain ⟨f, hf, hfunction, ⟨hwalk, hdeclared⟩ | ⟨e, he, heq⟩⟩ := hd.home h.formed
        · have hdeclared : role = .variable ∨ role = .type := hdeclared _ rfl
          obtain rfl | rfl := hdeclared
          · refine (hfunctions k f hf hfunction).2 _ (mem_append_left _ ?_)
            exact mem_filterMap.mpr ⟨_, hwalk, rfl⟩
          · cases hstorage
        · cases heq
          exact (hfunctions k f hf hfunction).2 _ (mem_append_right _ he)
  refine ⟨⟨fun k d hd hfunction => ?_, fun k d hd hstorage' => ?_, hs⟩, hplanned⟩
  · obtain ⟨f, hf⟩ := Option.isSome_iff_exists.mp (hfunctions k d hd hfunction).1
    obtain ⟨j, e, he, hid, hsuits⟩ := hs.frames _ f hf
    cases h.formed.numbered.eq hd.mem_levels he.mem_levels hid.symm
    exact ⟨f, hf, hsuits⟩
  · obtain ⟨x, hx⟩ := Option.isSome_iff_exists.mp (hstorage k d hd hstorage')
    obtain ⟨j, e, he, hid, hsuits⟩ := hs.accesses _ x hx
    cases h.formed.numbered.eq hd.mem_levels he.mem_levels hid.symm
    exact ⟨x, hx, hsuits⟩

theorem Program.Analyzed.planned (h : p.Analyzed a) {pl : Planner} (hl : p.layout a {} = (.ok (), pl)) :
    pl.Planned p a := (h.meets_plan.of_gives hl).2

end

end MmixCompiler
