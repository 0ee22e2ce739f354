import MmixCompiler.Proofs.Ir.Canonical
import MmixCompiler.Proofs.Register.Assigned

/-! Canonical code writes its temporaries before it reads them. Flattening moves every operand into a
temporary of its own and reads it only afterwards; at the labels of a block everything has been
written that had been when the block began. -/

namespace MmixCompiler.Ir

open Fresh Mmix List

/-- Code that may stand wherever `known` has been written and goes to its own labels or to others, which
`outer` tells of. -/
structure Lays (outer w : Written) (known : Set Temp) (code : List Stmt) (out : Set Temp) : Prop where
  labels : w.map Prod.fst = labelsOf code
  above : ∀ e ∈ w, known ⊆ e.2
  grows : known ⊆ out
  assigns : ∀ w', w ⊆ w' → outer ⊆ w' → Assigns w' known (code.map Stmt.outline) out

namespace Lays

variable {outer w w' : Written} {known mid out : Set Temp} {code more : List Stmt}

theorem nil : Lays outer [] known [] known := ⟨rfl, by simp, Set.Subset.rfl, fun _ _ _ => Set.Subset.rfl⟩

theorem append (h : Lays outer w known code mid) (h' : Lays outer w' mid more out) :
    Lays outer (w ++ w') known (code ++ more) out where
  labels := by rw [map_append, h.labels, h'.labels, labelsOf_append]
  above e he := (mem_append.mp he).elim (h.above e) fun he => h.grows.trans (h'.above e he)
  grows := h.grows.trans h'.grows
  assigns v hv houter := by
    obtain ⟨hw, hw'⟩ := append_subset.mp hv
    rw [map_append]
    exact (h.assigns v hw houter).append (h'.assigns v hw' houter)

theorem snoc (h : Lays outer w known code mid) {e : Expr} (he : ∀ u ∈ e.temps, u ∈ mid) (t : Temp) :
    Lays outer w known (code ++ [.move (.temp t) e]) (mid ∪ {t}) := by
  have hlast : Lays outer [] mid [.move (.temp t) e] (mid ∪ {t}) := by
    refine ⟨by simp [labelsOf, Stmt.label?], by simp, Set.subset_union_left, fun v _ _ => ?_⟩
    exact ⟨he, by simp, by simp [Assigns]⟩
  simpa using h.append hlast

theorem forget (h : Lays outer w known code out) : Lays outer w known code known :=
  ⟨h.labels, h.above, Set.Subset.rfl, fun v hv houter => (h.assigns v hv houter).mono Set.Subset.rfl h.grows⟩

end Lays

/-- The labels of a part that is in a block. -/
def Part.ownLabels : Part → List Label
  | .stmt st => labelsOf [st]
  | .stmts ss => labelsOf ss
  | _ => []

/-- The code of a tree over temporaries that have been written, in a block whose labels `outer` tells of. -/
theorem Flattens.exists_lays {x : Part} {s s' : Supply} {c : List Stmt} {r : List Expr} (h : Flattens x s c r s')
    (targets : List Label) (hx : x.Structured targets) (outer : Written) (known : Set Temp)
    (houter : ∀ l ∈ targets, (l, known) ∈ outer) (htemps : ∀ u ∈ x.contents.temps, u ∈ known) :
    ∃ w out, Lays outer w known c out ∧ (∀ f ∈ r, ∀ u ∈ f.temps, u ∈ out) ∧ ∀ l ∈ x.ownLabels, (l, known) ∈ w := by
  induction h generalizing targets outer known with
  | const | name | temp | held =>
    exact ⟨[], known, .nil, forall_mem_singleton.mpr htemps, forall_mem_nil _⟩
  | noOperands | noStmts => exact ⟨[], known, .nil, forall_mem_nil _, forall_mem_nil _⟩
  | mem _ ih | unop _ ih =>
    obtain ⟨w, out, hlays, ht, -⟩ := ih targets hx outer known houter htemps
    simp only [forall_mem_singleton] at ht ⊢
    exact ⟨w, out, hlays, ht, forall_mem_nil _⟩
  | call _ ih =>
    obtain ⟨w, out, hlays, hts, -⟩ := ih targets hx outer known houter htemps
    refine ⟨w, out, hlays, forall_mem_singleton.mpr fun u hu => ?_, forall_mem_nil _⟩
    rw [Expr.temps, tempsAll_map_temp] at hu
    exact hts _ (mem_map_of_mem hu) u mem_cons_self
  | binop _ _ ihl ihr =>
    obtain ⟨hl, hr⟩ := forall_mem_append.mp htemps
    obtain ⟨w, mid, hlays, ht, -⟩ := ihl [] hx.1 outer known (forall_mem_nil _) hl
    obtain ⟨w', out, hlays', hu, -⟩ := ihr [] hx.2 outer mid (forall_mem_nil _) fun u hu => hlays.grows (hr u hu)
    simp only [forall_mem_singleton, Expr.temps] at ht hu
    refine ⟨w ++ w', out, hlays.append hlays', ?_, forall_mem_nil _⟩
    simpa [Expr.temps] using ⟨hlays'.grows ht, hu⟩
  | operands _ _ ihl ihr =>
    obtain ⟨hl, hr⟩ := forall_mem_append.mp htemps
    obtain ⟨w, mid, hlays, ht, -⟩ := ihl [] hx.1 outer known (forall_mem_nil _) hl
    obtain ⟨w', out, hlays', hts, -⟩ := ihr [] hx.2 outer mid (forall_mem_nil _) fun u hu => hlays.grows (hr u hu)
    refine ⟨w ++ w', out, hlays.append hlays', forall_mem_cons.mpr ⟨fun u hu => ?_, hts⟩, forall_mem_nil _⟩
    exact hlays'.grows (ht _ mem_cons_self u hu)
  | after _ _ ihl ihr =>
    obtain ⟨hl, hr⟩ := forall_mem_append.mp htemps
    obtain ⟨w, mid, hlays, -⟩ := ihl [] hx.1 outer known (forall_mem_nil _) hl
    obtain ⟨w', out, hlays', hf, -⟩ := ihr [] hx.2 outer known (forall_mem_nil _) hr
    exact ⟨w ++ w', out, hlays.forget.append hlays', hf, forall_mem_nil _⟩
  | @moved _ _ _ _ s₁ _ ih =>
    obtain ⟨w, out, hlays, hf, -⟩ := ih targets hx outer known houter htemps
    exact ⟨w, _, hlays.snoc (hf _ mem_cons_self) s₁.temps,
      forall_mem_singleton.mpr (forall_mem_singleton.mpr (.inr rfl)), forall_mem_nil _⟩
  | assign => exact hx.elim
  | @store _ _ _ _ t _ _ u _ _ _ ihl ihr =>
    obtain ⟨hl, hr⟩ := forall_mem_append.mp htemps
    obtain ⟨w, mid, hlays, ht, -⟩ := ihl [] hx.1 outer known (forall_mem_nil _) hl
    obtain ⟨w', out, hlays', hu, -⟩ := ihr [] hx.2 outer mid (forall_mem_nil _) fun u hu => hlays.grows (hr u hu)
    simp only [forall_mem_singleton, Expr.temps] at ht hu
    have hstore : Lays outer [] out [.move (.mem (.temp t)) (.temp u)] out := by
      refine ⟨by simp [labelsOf, Stmt.label?], by simp, Set.Subset.rfl, fun v _ _ => ⟨?_, ?_, ?_⟩⟩
      · simpa [Stmt.temps, Expr.temps] using ⟨hlays'.grows ht, hu⟩
      · simp [Stmt.gotos]
      · exact Set.subset_union_left
    exact ⟨_, out, (hlays.append hlays').append hstore, forall_mem_nil _, forall_mem_nil _⟩
  | @branch _ yes no _ _ t s₁ _ ih =>
    obtain ⟨w, mid, hlays, ht, -⟩ := ih [] hx.1 outer known (forall_mem_nil _) htemps
    simp only [forall_mem_singleton, Expr.temps] at ht
    -- The code goes on at the new label, and from there to the other target.
    refine ⟨w ++ [(.fresh s₁.labels, known)], known, ⟨?_, ?_, Set.Subset.rfl, fun v hv ho => ?_⟩, forall_mem_nil _,
      forall_mem_nil _⟩
    · simp [hlays.labels, labelsOf, filterMap_cons, Stmt.label?]
    · exact forall_mem_append.mpr ⟨hlays.above, by simp⟩
    · obtain ⟨hw, hnew⟩ := append_subset.mp hv
      have hnext : (.fresh s₁.labels, known) ∈ v := hnew mem_cons_self
      rw [map_append]
      refine (hlays.assigns v hw ho).append ⟨?_, ?_, known, hnext, ?_, ?_⟩
      · simpa [Stmt.temps, Expr.temps] using ht
      · intro l hl
        rcases mem_cons.mp hl with rfl | hl
        · exact ⟨known, ho (houter _ hx.2.1), hlays.grows⟩
        · obtain rfl := mem_singleton.mp hl
          exact ⟨known, hnext, hlays.grows⟩
      · exact hlays.grows.trans Set.subset_union_left
      · refine ⟨by simp [Stmt.temps], fun l hl => ?_, Set.subset_union_left⟩
        obtain rfl := mem_singleton.mp hl
        exact ⟨known, ho (houter _ hx.2.2), Set.Subset.rfl⟩
  | jump l =>
    refine ⟨[], known, ⟨rfl, by simp, Set.Subset.rfl, fun v _ ho => ?_⟩, forall_mem_nil _, forall_mem_nil _⟩
    refine ⟨by simp [Stmt.temps], fun k hk => ?_, Set.subset_union_left⟩
    obtain rfl := mem_singleton.mp hk
    exact ⟨known, ho (houter _ hx), Set.Subset.rfl⟩
  | label l =>
    refine ⟨[(l, known)], known, ⟨rfl, by simp, Set.Subset.rfl, fun v hv _ => ?_⟩, forall_mem_nil _,
      forall_mem_singleton.mpr mem_cons_self⟩
    exact ⟨known, hv mem_cons_self, Set.Subset.rfl, Set.Subset.rfl⟩
  | @eval _ _ _ _ s₁ _ ih =>
    obtain ⟨w, out, hlays, hf, -⟩ := ih [] hx outer known (forall_mem_nil _) htemps
    exact ⟨w, _, hlays.snoc (hf _ mem_cons_self) s₁.temps, forall_mem_nil _, forall_mem_nil _⟩
  | @block ss _ _ _ _ ih =>
    -- A block's own labels tell of what had been written when it began.
    obtain ⟨w, out, hlays, -, hlabels⟩ := ih (labelsOf ss) hx ((labelsOf ss).map fun l => (l, known)) known
      (fun l hl => mem_map_of_mem hl) htemps
    refine ⟨w, out, ⟨hlays.labels, hlays.above, hlays.grows, fun v hv _ => hlays.assigns v hv fun e he => ?_⟩,
      forall_mem_nil _, forall_mem_nil _⟩
    obtain ⟨l, hl, rfl⟩ := mem_map.mp he
    exact hv (hlabels l hl)
  | @stmts st ss _ _ _ _ _ _ _ ihl ihr =>
    obtain ⟨hl, hr⟩ := forall_mem_append.mp htemps
    obtain ⟨w, mid, hlays, -, hlabel⟩ := ihl targets hx.1 outer known houter hl
    obtain ⟨w', out, hlays', -, hlabels⟩ := ihr targets hx.2 outer known houter hr
    refine ⟨w ++ w', out, hlays.forget.append hlays', forall_mem_nil _, fun l hmem => ?_⟩
    have hsplit : l ∈ labelsOf [st] ++ labelsOf ss := labelsOf_append [st] ss ▸ hmem
    rcases mem_append.mp hsplit with hmem | hmem
    · exact mem_append_left _ (hlabel l hmem)
    · exact mem_append_right _ (hlabels l hmem)

end MmixCompiler.Ir
