import MmixCompiler.Proofs.Run
import MmixCompiler.Tree.Parser

/-! The tokens that parsers consume. `Takes` says what is known of a result and the kinds of the
tokens it was read from; `Accepts` says that a parser reads given kinds to their end, with what
comes after them as its lookahead. -/

namespace MmixCompiler

def Lexeme.Shows (l : Lexeme) (k : Token.Kind) : Prop := ∃ t, l.outcome = .ok t ∧ t.kind = k

/-- The lexeme is what an error is about. -/
def Lexeme.Offends (l : Lexeme) (e : ParseError) : Prop :=
  match l.outcome with
  | .ok t => ∃ expected, e = ⟨t.start, .unexpected expected t.kind⟩
  | .error fault => e = ⟨fault.position, .lexical fault.fault⟩

namespace Stream

/-- Tokens of these kinds come first, then `rest`. -/
inductive Begins : Stream → List Token.Kind → Stream → Prop where
  | nil {s} : Begins s [] s
  | cons {s k ks rest} (hne : s.ahead ≠ []) (hk : s.head.Shows k) (h : Begins s.tail ks rest) :
    Begins s (k :: ks) rest

/-- Only the end of the text is read for ever. -/
def Closed (s : Stream) : Prop := ∀ t, s.last.outcome = .ok t → t.kind = .eos

variable {s rest : Stream} {ks ks' : List Token.Kind}

theorem length_tail (h : s.ahead ≠ []) : s.length = s.tail.length + 1 := by
  unfold length tail
  have := List.length_pos_iff.mpr h
  rw [List.length_tail]
  omega

theorem Begins.length (h : s.Begins ks rest) : s.length = ks.length + rest.length := by
  induction h with
  | nil => simp
  | cons hne _ _ ih => rw [length_tail hne, ih, List.length_cons]; omega

theorem begins_nil : s.Begins [] rest ↔ s = rest := ⟨fun h => by cases h; rfl, fun h => h ▸ .nil⟩

theorem Begins.append {mid : Stream} (h : s.Begins ks mid) (h' : mid.Begins ks' rest) : s.Begins (ks ++ ks') rest := by
  induction h with
  | nil => exact h'
  | cons hne hk _ ih => exact .cons hne hk (ih h')

theorem begins_append : s.Begins (ks ++ ks') rest ↔ ∃ mid, s.Begins ks mid ∧ mid.Begins ks' rest := by
  constructor
  · intro h
    induction ks generalizing s with
    | nil => exact ⟨s, .nil, h⟩
    | cons k ks ih =>
      cases h with
      | cons hne hk h =>
        obtain ⟨mid, hmid, hrest⟩ := ih h
        exact ⟨mid, .cons hne hk hmid, hrest⟩
  · rintro ⟨mid, h, h'⟩
    exact h.append h'

def prepend (ls : List Lexeme) (s : Stream) : Stream := { s with ahead := ls ++ s.ahead }

variable {r : Stream} {l : Lexeme} {ls ls' : List Lexeme}

@[simp] theorem prepend_nil : s.prepend [] = s := rfl

theorem prepend_append : s.prepend (ls ++ ls') = (s.prepend ls').prepend ls := by
  simp [prepend]

@[simp] theorem head_prepend_cons : (s.prepend (l :: ls)).head = l := rfl

@[simp] theorem length_prepend : (s.prepend ls).length = ls.length + s.length := List.length_append

theorem closed_prepend : (s.prepend ls).Closed ↔ s.Closed := Iff.rfl

theorem head_prepend_congr (h : r.head = s.head) : (r.prepend ls).head = (s.prepend ls).head := by
  cases ls with
  | nil => exact h
  | cons => rfl

theorem prepend_head_tail (h : s.ahead ≠ []) : s = s.tail.prepend [s.head] := by
  rcases s with ⟨_ | ⟨l, ls⟩, last⟩
  · exact absurd rfl h
  · rfl

theorem begins_prepend (h : List.Forall₂ Lexeme.Shows ls ks) : (s.prepend ls).Begins ks s := by
  induction h with
  | nil => exact .nil
  | cons hk _ ih => exact .cons (List.cons_ne_nil _ _) hk ih

end Stream

namespace Parse

variable {α β ι : Type}

section Takes

/-- Bounds on the lengths of streams: of a first one and of others. -/
structure Bounds (ι : Type) where
  first : Nat
  other : ι → Nat

namespace Bounds

def succ (d : Bounds ι) : Bounds ι := ⟨d.first + 1, fun i => d.other i + 1⟩

def drop (k : Nat) (d : Bounds ι) : Bounds ι := ⟨d.first - k, fun i => d.other i - k⟩

end Bounds

variable {d d' : Bounds ι} {N : ι → Nat} {t : Token} {s s₁ s' : Reader} {ls ls' : List Lexeme} {e : ParseError}

/-- The other parsers give `a` with every stream that begins with `ls`, which lie between `s` and `s'`, and with the
lexeme after them, as far as it is short enough. -/
def Repeats (N : ι → Nat) (y : ι → Parse α) (s : Reader) (ls : List Lexeme) (a : α) (s' : Reader) : Prop :=
  s.stream = s'.stream.prepend ls ∧ ∀ (i : ι) (r : Stream), r.head = s'.stream.head → (r.prepend ls).length < N i →
    outcome (y i) { s with stream := r.prepend ls } = (.ok a, { s' with stream := r })

/-- The other parsers give this error with every stream that begins with `ls` and with the lexeme after them, which the
error is about, as far as it is short enough. -/
def Refuses (N : ι → Nat) (y : ι → Parse α) (s : Reader) (ls : List Lexeme) (e : ParseError) : Prop :=
  ∃ rest : Stream, s.stream = rest.prepend ls ∧ rest.head.Offends e ∧ ∀ (i : ι) (r : Stream), r.head = rest.head →
    (r.prepend ls).length < N i → (outcome (y i) { s with stream := r.prepend ls }).1 = .error e

theorem Repeats.closed {y : ι → Parse α} {a : α} (h : Repeats N y s ls a s') (hs : s.stream.Closed) :
    s'.stream.Closed := by
  rwa [h.1, Stream.closed_prepend] at hs

theorem Repeats.length {y : ι → Parse α} {a : α} (h : Repeats N y s ls a s') :
    s.stream.length = ls.length + s'.stream.length := by
  rw [h.1, Stream.length_prepend]

theorem Repeats.bind {y : ι → Parse β} {f : ι → β → Parse α} {b : β} {a : α} (hy : Repeats N y s ls b s₁)
    (hf : Repeats (fun i => N i - ls.length) (fun i => f i b) s₁ ls' a s') :
    Repeats N (fun i => y i >>= f i) s (ls ++ ls') a s' := by
  refine ⟨by rw [hy.1, hf.1, Stream.prepend_append], fun i r hr hlength => ?_⟩
  rw [Stream.prepend_append] at hlength ⊢
  rw [outcome_bind, hy.2 i _ (by rw [hf.1, Stream.head_prepend_congr hr]) hlength]
  rw [Stream.length_prepend] at hlength
  exact hf.2 i r hr (Nat.lt_sub_of_add_lt (by omega))

theorem Repeats.bind_refuses {y : ι → Parse β} {f : ι → β → Parse α} {b : β} (hy : Repeats N y s ls b s₁)
    (hf : Refuses (fun i => N i - ls.length) (fun i => f i b) s₁ ls' e) :
    Refuses N (fun i => y i >>= f i) s (ls ++ ls') e := by
  obtain ⟨rest, hs₁, he, hf⟩ := hf
  refine ⟨rest, by rw [hy.1, hs₁, Stream.prepend_append], he, fun i r hr hlength => ?_⟩
  rw [Stream.prepend_append] at hlength ⊢
  rw [outcome_bind, hy.2 i _ (by rw [hs₁, Stream.head_prepend_congr hr]) hlength]
  rw [Stream.length_prepend] at hlength
  exact hf i r hr (Nat.lt_sub_of_add_lt (by omega))

theorem Refuses.bind {y : ι → Parse β} (h : Refuses N y s ls e) (f : ι → β → Parse α) :
    Refuses N (fun i => y i >>= f i) s ls e := by
  obtain ⟨rest, hs, he, hy⟩ := h
  refine ⟨rest, hs, he, fun i r hr hlength => ?_⟩
  have hfails := hy i r hr hlength
  rw [outcome_bind]
  cases ho : outcome (y i) { s with stream := r.prepend ls } with
  | mk result s₁ =>
    rw [ho] at hfails
    cases hfails
    rfl

/-- What is known of a result of `x` and the kinds of the tokens it was read from, which the parsers `y` read in the
same way. An error is about the lexeme after tokens that something known begins with. -/
def Finds (N : ι → Nat) (x : Parse α) (y : ι → Parse α) (s : Reader) (post : α → List Token.Kind → Prop) : Prop :=
  Meets x s (fun a s' => ∃ ls ks, List.Forall₂ Lexeme.Shows ls ks ∧ post a ks ∧ Repeats N y s ls a s') fun e =>
    ∃ ls ks, List.Forall₂ Lexeme.Shows ls ks ∧ (∃ a ks', post a (ks ++ ks')) ∧ Refuses N y s ls e

/-- `x` and the parsers `y` find such results with all streams that are short enough. -/
def Takes (d : Bounds ι) (x : Parse α) (y : ι → Parse α) (post : α → List Token.Kind → Prop) : Prop :=
  ∀ s : Reader, s.stream.Closed → s.stream.length < d.first → Finds d.other x y s post

/-- The same where the next token has been looked at. -/
def TakesAfter (t : Token) (d : Bounds ι) (x : Parse α) (y : ι → Parse α) (post : α → List Token.Kind → Prop) : Prop :=
  ∀ s : Reader, s.stream.Closed → s.stream.length < d.first → s.stream.head.outcome = .ok t → Finds d.other x y s post

/-- The same where the next token has been taken: it is one of those that count, or the error is about it. -/
inductive TakesNext (t : Token) (d : Bounds ι) (x : Parse α) (y : ι → Parse α) (post : α → List Token.Kind → Prop) :
    Prop where
  | take (hne : t.kind ≠ .eos) (h : Takes d x y fun a ks => post a (t.kind :: ks))
  | reject {expected : Expected} (hx : x = reject t expected) (hy : ∀ i, y i = reject t expected)
    (h : ∃ a ks, post a ks)

variable {post : α → List Token.Kind → Prop} {mid : β → List Token.Kind → Prop} {x : Parse α} {y : ι → Parse α}

theorem Finds.exists_post (h : Finds N x y s post) : ∃ a ks, post a ks := by
  unfold Finds Meets at h
  split at h
  · obtain ⟨-, ks, -, ha, -⟩ := h
    exact ⟨_, ks, ha⟩
  · obtain ⟨-, ks, -, ⟨a, ks', ha⟩, -⟩ := h
    exact ⟨a, _, ha⟩

theorem Takes.exists_post (h : Takes d x y post) (hd : 0 < d.first) : ∃ a ks, post a ks :=
  (h ⟨⟨[], ⟨.error ⟨{}, .emptyCharacter⟩, {}⟩⟩, {}, 0, []⟩ (fun _ h => by cases h) hd).exists_post

theorem takes_of_pos (h : 0 < d.first → Takes d x y post) : Takes d x y post :=
  fun s hs hn => h (Nat.zero_lt_of_lt hn) s hs hn

/-- The other parsers may be replaced if each run of the new ones is a run of those before. -/
theorem Finds.imp {κ : Type} {N' : κ → Nat} {y' : κ → Parse α}
    {post' : α → List Token.Kind → Prop} (h : Finds N x y s post') (hpost : ∀ a ks, post' a ks → post a ks)
    (hother : ∀ (k : κ) (s : Reader), s.stream.length < N' k →
      ∃ i, s.stream.length < N i ∧ outcome (y' k) s = outcome (y i) s) : Finds N' x y' s post := by
  refine Meets.imp h ?_ ?_
  · rintro a s' ⟨ls, ks, hls, ha, heq, hy⟩
    refine ⟨ls, ks, hls, hpost a ks ha, heq, fun k r hr hlength => ?_⟩
    obtain ⟨i, hi, hsame⟩ := hother k { s with stream := r.prepend ls } hlength
    rw [hsame, hy i r hr hi]
  · rintro e ⟨ls, ks, hls, ⟨a, ks', ha⟩, rest, heq, he, hy⟩
    refine ⟨ls, ks, hls, ⟨a, ks', hpost a _ ha⟩, rest, heq, he, fun k r hr hlength => ?_⟩
    obtain ⟨i, hi, hsame⟩ := hother k { s with stream := r.prepend ls } hlength
    rw [hsame, hy i r hr hi]

theorem Takes.imp {κ : Type} {d' : Bounds κ} {y' : κ → Parse α} (h : Takes d x y post)
    (hfirst : d'.first ≤ d.first) (hother : ∀ (k : κ) (s : Reader), s.stream.length < d'.other k →
      ∃ i, s.stream.length < d.other i ∧ outcome (y' k) s = outcome (y i) s) : Takes d' x y' post :=
  fun s hs hn => (h s hs (Nat.lt_of_lt_of_le hn hfirst)).imp (fun _ _ => id) hother

theorem Takes.mono {post' : α → List Token.Kind → Prop} (h : Takes d x y post')
    (hpost : ∀ a ks, post' a ks → post a ks) : Takes d x y post :=
  fun s hs hn => (h s hs hn).imp hpost fun i _ hi => ⟨i, hi, rfl⟩

theorem Takes.le (h : Takes d x y post) (hfirst : d'.first ≤ d.first)
    (hother : ∀ i, d'.other i ≤ d.other i) : Takes d' x y post :=
  h.imp hfirst fun i _ hi => ⟨i, Nat.lt_of_lt_of_le hi (hother i), rfl⟩

theorem Takes.pred (h : Takes d.succ x y post) : Takes d x y post := h.le (Nat.le_succ _) fun _ => Nat.le_succ _

theorem Takes.after (h : Takes d x y post) : TakesAfter t d x y post := fun s hs hn _ => h s hs hn

/-- After a result, as much shorter streams are left as it has taken tokens. -/
theorem Takes.bind_drop {x : Parse β} {y : ι → Parse β} {f : β → Parse α} {f' : ι → β → Parse α} (hx : Takes d x y mid)
    (hpost : ∀ b ks, mid b ks → ∃ a ks', post a (ks ++ ks'))
    (hf : ∀ b ks, mid b ks → Takes (d.drop ks.length) (f b) (fun i => f' i b) fun a ks' => post a (ks ++ ks')) :
    Takes d (x >>= f) (fun i => y i >>= f' i) post := by
  intro s hs hn
  rw [Finds, meets_bind]
  refine Meets.imp (hx s hs hn) ?_ ?_
  · rintro b s₁ ⟨ls, ks, hls, hb, hy⟩
    have hshort : s₁.stream.length < (d.drop ks.length).first := by
      have hlength := hy.length
      rw [hls.length_eq] at hlength
      simp only [Bounds.drop]
      omega
    refine Meets.imp (hf b ks hb s₁ (hy.closed hs) hshort) ?_ ?_
    · rintro a s' ⟨ls', ks', hls', ha, hf⟩
      exact ⟨ls ++ ls', ks ++ ks', List.rel_append hls hls', ha, hy.bind (hls.length_eq ▸ hf)⟩
    · rintro e ⟨ls', ks', hls', ⟨a, ks'', ha⟩, hf⟩
      exact ⟨ls ++ ls', ks ++ ks', List.rel_append hls hls', ⟨a, ks'', by rwa [List.append_assoc]⟩,
        hy.bind_refuses (hls.length_eq ▸ hf)⟩
  · rintro e ⟨ls, ks, hls, ⟨b, ks', hb⟩, hy⟩
    obtain ⟨a, ks'', ha⟩ := hpost b _ hb
    exact ⟨ls, ks, hls, ⟨a, ks' ++ ks'', by rwa [← List.append_assoc]⟩, hy.bind f'⟩

theorem Takes.bind {x : Parse β} {y : ι → Parse β} {f : β → Parse α} {f' : ι → β → Parse α} (hx : Takes d x y mid)
    (hf : ∀ b ks, mid b ks → Takes d (f b) (fun i => f' i b) fun a ks' => post a (ks ++ ks')) :
    Takes d (x >>= f) (fun i => y i >>= f' i) post := by
  refine takes_of_pos fun hd => hx.bind_drop (fun b ks hb => (hf b ks hb).exists_post hd) fun b ks hb => ?_
  exact (hf b ks hb).le (Nat.sub_le _ _) fun _ => Nat.sub_le _ _

theorem takes_pure {a : α} (h : post a []) : Takes d (pure a) (fun _ => pure a) post :=
  fun _ _ _ => ⟨[], [], .nil, h, rfl, fun _ _ _ _ => rfl⟩

theorem takes_mark {position : Position} {f : Mark → α} (h : ∀ m, post (f m) []) :
    Takes d (do return f (← mark position)) (fun _ => do return f (← mark position)) post :=
  fun _ _ _ => ⟨[], [], .nil, h _, rfl, fun _ _ _ _ => rfl⟩

section
variable {l : Lexeme} {fault : Token.Error}

theorem outcome_peek (s : Reader) :
    outcome peek s = outcome (ofLexeme s.stream.head) { s with seen := s.stream.head.stop } := rfl

theorem outcome_next (s : Reader) :
    outcome next s = outcome (ofLexeme s.stream.head)
      { s with stream := s.stream.tail, seen := s.stream.head.stop } := rfl

theorem outcome_ofLexeme (h : l.outcome = .ok t) : outcome (ofLexeme l) s = (.ok t, s) := by
  rw [ofLexeme, h]
  rfl

theorem outcome_ofLexeme_error (h : l.outcome = .error fault) :
    outcome (ofLexeme l) s = (.error ⟨fault.position, .lexical fault.fault⟩, s) := by
  rw [ofLexeme, h]
  rfl

theorem outcome_next_bind (h : s.stream.head.outcome = .ok t) {f : Token → Parse α} : outcome (next >>= f) s =
    outcome (f t) { s with stream := s.stream.tail, seen := s.stream.head.stop } := by
  rw [outcome_bind, outcome_next, outcome_ofLexeme h]

theorem finds_of_error {x : Parse β} {f : β → Parse α} {f' : ι → β → Parse α}
    (ho : s.stream.head.outcome = .error fault)
    (hx : ∀ s' : Reader, s'.stream.head.outcome = .error fault →
      (outcome x s').1 = .error ⟨fault.position, .lexical fault.fault⟩)
    (hpost : ∃ a ks, post a ks) : Finds N (x >>= f) (fun i => x >>= f' i) s post := by
  have hrefuses : Refuses N (fun _ => x) s [] ⟨fault.position, .lexical fault.fault⟩ :=
    ⟨s.stream, rfl, by rw [Lexeme.Offends, ho], fun _ r hr _ => hx _ (by rw [← ho, ← hr]; rfl)⟩
  rw [Finds, Meets, outcome_bind]
  have hfails := hx s ho
  cases ho' : outcome x s with
  | mk result s₁ =>
    rw [ho'] at hfails
    cases hfails
    exact ⟨[], [], .nil, hpost, hrefuses.bind f'⟩

end

section
variable {f : Token → Parse α} {f' : ι → Token → Parse α}

theorem takes_peek_bind (h : ∀ t, TakesAfter t d (f t) (fun i => f' i t) post) :
    Takes d (peek >>= f) (fun i => peek >>= f' i) post := by
  intro s hs hn
  cases ho : s.stream.head.outcome with
  | error fault =>
    have hend := h ⟨.eos, "", {}, {}⟩ ⟨⟨[], ⟨.ok ⟨.eos, "", {}, {}⟩, {}⟩⟩, {}, 0, []⟩ (by rintro _ ⟨⟩; rfl)
      (Nat.zero_lt_of_lt hn) rfl
    refine finds_of_error ho (fun s' hs' => ?_) hend.exists_post
    rw [outcome_peek, outcome_ofLexeme_error hs']
  | ok t =>
    have hpeek : Repeats d.other (fun _ => peek) s [] t { s with seen := s.stream.head.stop } := by
      refine ⟨rfl, fun _ r hr _ => ?_⟩
      rw [outcome_peek, Stream.prepend_nil, hr, outcome_ofLexeme ho]
    rw [Finds, Meets, outcome_bind, outcome_peek, outcome_ofLexeme ho]
    refine Meets.imp (h t { s with seen := s.stream.head.stop } hs hn ho) ?_ ?_
    · rintro a s' ⟨ls, ks, hls, ha, hy⟩
      exact ⟨ls, ks, hls, ha, hpeek.bind hy⟩
    · rintro e ⟨ls, ks, hls, ha, hy⟩
      exact ⟨ls, ks, hls, ha, hpeek.bind_refuses hy⟩

/-- Taking the token that has been looked at. What is nested after it has shorter streams. -/
theorem takesAfter_next_nested (hne : t.kind ≠ .eos)
    (h : Takes d (f t) (fun i => f' i t) fun a ks => post a (t.kind :: ks)) :
    TakesAfter t d.succ (next >>= f) (fun i => next >>= f' i) post := by
  intro s hs hn ho
  have hahead : s.stream.ahead ≠ [] := fun hnil => hne (hs t (by rwa [Stream.head, hnil] at ho))
  have hnext : Repeats d.succ.other (fun _ => next) s [s.stream.head] t
      { s with stream := s.stream.tail, seen := s.stream.head.stop } := by
    refine ⟨Stream.prepend_head_tail hahead, fun _ r _ _ => ?_⟩
    rw [outcome_next, Stream.head_prepend_cons, outcome_ofLexeme ho]
    rfl
  have hshort : s.stream.tail.length < d.first := by
    have hlength := Stream.length_tail hahead
    simp only [Bounds.succ] at hn
    omega
  rw [Finds, Meets, outcome_next_bind ho]
  refine Meets.imp (h { s with stream := s.stream.tail, seen := s.stream.head.stop } hs hshort) ?_ ?_
  · rintro a s' ⟨ls, ks, hls, ha, hy⟩
    exact ⟨s.stream.head :: ls, t.kind :: ks, .cons ⟨t, ho, rfl⟩ hls, ha, hnext.bind hy⟩
  · rintro e ⟨ls, ks, hls, ha, hy⟩
    exact ⟨s.stream.head :: ls, t.kind :: ks, .cons ⟨t, ho, rfl⟩ hls, ha, hnext.bind_refuses hy⟩

theorem takesAfter_next_bind (hne : t.kind ≠ .eos)
    (h : Takes d (f t) (fun i => f' i t) fun a ks => post a (t.kind :: ks)) :
    TakesAfter t d (next >>= f) (fun i => next >>= f' i) post := fun s hs hn ho =>
  (takesAfter_next_nested hne h s hs (Nat.lt_succ_of_lt hn) ho).imp (fun _ _ => id) fun i _ hi =>
    ⟨i, Nat.lt_succ_of_lt hi, rfl⟩

theorem takes_next_bind (h : ∀ t, TakesNext t d (f t) (fun i => f' i t) post) :
    Takes d.succ (next >>= f) (fun i => next >>= f' i) post := by
  intro s hs hn
  cases ho : s.stream.head.outcome with
  | error fault =>
    have hpost : ∃ a ks, post a ks := by
      cases h ⟨.eos, "", {}, {}⟩ with
      | take hne => exact absurd rfl hne
      | reject _ _ hpost => exact hpost
    refine finds_of_error ho (fun s' hs' => ?_) hpost
    rw [outcome_next, outcome_ofLexeme_error hs']
  | ok t =>
    cases h t with
    | take hne h => exact takesAfter_next_nested hne h s hs hn ho
    | @reject expected hx hy hpost =>
      rw [Finds, Meets, outcome_next_bind ho, hx]
      refine ⟨[], [], .nil, hpost, s.stream, rfl, ?_, fun i r hr _ => ?_⟩
      · rw [Lexeme.Offends, ho]
        exact ⟨expected, rfl⟩
      · rw [outcome_next_bind (hr ▸ ho), hy i]
        rfl

end

theorem takes_sees_bind {kind : Token.Kind} {f : Bool → Parse α} {f' : ι → Bool → Parse α}
    (htrue : ∀ t, t.kind = kind → TakesAfter t d (f true) (fun i => f' i true) post)
    (hfalse : Takes d (f false) (fun i => f' i false) post) :
    Takes d (sees kind >>= f) (fun i => sees kind >>= f' i) post := by
  simp only [sees, bind_assoc, pure_bind]
  refine takes_peek_bind fun t => ?_
  by_cases h : t.kind = kind
  · simpa [h] using htrue t h
  · simpa [h] using hfalse.after

section
variable {f : Unit → Parse α} {f' : ι → Unit → Parse α}

theorem takes_enter_bind {rule : Rule} (h : Takes d (f ()) (fun i => f' i ()) post) :
    Takes d (enter rule >>= f) (fun i => enter rule >>= f' i) post := by
  have henter : Takes d (enter rule) (fun _ => enter rule) fun _ ks => ks = [] := fun _ _ _ =>
    ⟨[], [], .nil, rfl, rfl, fun _ _ _ _ => rfl⟩
  exact henter.bind fun _ _ hks => hks ▸ h

theorem takes_expect_bind {kind : Token.Kind} {expected : Expected} (hkind : kind ≠ .eos)
    (h : Takes d (f ()) (fun i => f' i ()) fun a ks => post a (kind :: ks)) :
    Takes d (expect kind expected >>= f) (fun i => expect kind expected >>= f' i) post := by
  simp only [expect, bind_assoc]
  refine takes_of_pos fun hd => Takes.pred (takes_next_bind fun t => ?_)
  split
  · next heq =>
    rw [← heq] at h hkind
    exact .take hkind h
  · obtain ⟨a, ks, ha⟩ := h.exists_post hd
    exact .reject rfl (fun _ => rfl) ⟨a, _, ha⟩

theorem takes_symbol_bind {c : Char} (h : Takes d (f ()) (fun i => f' i ()) fun a ks => post a (.punct c :: ks)) :
    Takes d (symbol c >>= f) (fun i => symbol c >>= f' i) post :=
  takes_expect_bind (by simp) h

theorem takes_word_bind {w : Keyword} (h : Takes d (f ()) (fun i => f' i ()) fun a ks => post a (.keyword w :: ks)) :
    Takes d (word w >>= f) (fun i => word w >>= f' i) post :=
  takes_expect_bind (by simp) h

end

theorem takes_identifier_bind {f : String → Parse α} {f' : ι → String → Parse α}
    (h : ∀ name, Takes d (f name) (fun i => f' i name) fun a ks => post a (.ident name :: ks)) :
    Takes d (identifier >>= f) (fun i => identifier >>= f' i) post := by
  simp only [identifier, bind_assoc]
  refine takes_of_pos fun hd => Takes.pred (takes_next_bind fun t => ?_)
  split
  · next name hname => exact .take (by simp [hname]) (by simpa [hname] using h name)
  · obtain ⟨a, ks, ha⟩ := (h "x").exists_post hd
    exact .reject rfl (fun _ => rfl) ⟨a, _, ha⟩

section
variable (post) {step : α → Parse (Option α)} {step' : ι → α → Parse (Option α)} {a : α} {ks : List Token.Kind}
  (ha : post a ks) (hstep : ∀ a ks, post a ks → Takes d (step a) (fun i => step' i a)
    fun b ks' => (b.isSome → ks' ≠ []) ∧ post (b.getD a) (ks ++ ks'))
include ha hstep

/-- What each step keeps, repetition keeps. A step that gives something has taken some token, so however often there may
be steps, there are as many with each stream. -/
theorem takes_repeatUpTo (n : Nat) : Takes ⟨min d.first n, fun p : ι × Nat => min (d.other p.1) (p.2 + 1)⟩
    (repeatUpTo step n a) (fun p => repeatUpTo (step' p.1) (p.2 + 1) a) fun b ks' => post b (ks ++ ks') := by
  induction n generalizing a ks with
  | zero => exact takes_of_pos fun hd => by simp at hd
  | succ n ih =>
    have hfirst : Takes ⟨min d.first (n + 1), fun p : ι × Nat => min (d.other p.1) (p.2 + 1)⟩ (step a)
        (fun p => step' p.1 a) fun b ks' => (b.isSome → ks' ≠ []) ∧ post (b.getD a) (ks ++ ks') :=
      (hstep a ks ha).imp (Nat.min_le_left _ _) fun p _ hp =>
        ⟨p.1, Nat.lt_of_lt_of_le hp (Nat.min_le_left _ _), rfl⟩
    refine hfirst.bind_drop (fun b ks₁ hb => ⟨b.getD a, [], by simpa using hb.2⟩) ?_
    rintro (_ | b) ks₁ ⟨hne, hb⟩
    · exact takes_pure (by simpa using hb)
    · have hpos := List.length_pos_iff.mpr (hne rfl)
      refine ((ih hb).mono fun c ks₂ hc => by simpa using hc).imp (by simp only [Bounds.drop]; omega) fun p s hs => ?_
      simp only [Bounds.drop] at hs
      obtain ⟨k, hk⟩ : ∃ k, p.2 = k + 1 := ⟨p.2 - 1, by omega⟩
      exact ⟨(p.1, k), by simp only; omega, by rw [hk]; rfl⟩

theorem takes_iterate : Takes d (iterate step a) (fun i => iterate (step' i) a) fun b ks' => post b (ks ++ ks') := by
  have hiterate : ∀ (step : α → Parse (Option α)) (s : Reader),
      outcome (iterate step a) s = outcome (repeatUpTo step (s.stream.length + 1) a) s := fun _ _ => rfl
  intro s hs hn
  have hrepeat := takes_repeatUpTo post ha hstep (s.stream.length + 1)
  rw [Finds, Meets, hiterate]
  have htakes : Takes ⟨min d.first (s.stream.length + 1), d.other⟩ (repeatUpTo step (s.stream.length + 1) a)
      (fun i => iterate (step' i) a) fun b ks' => post b (ks ++ ks') :=
    hrepeat.imp (Nat.le_refl _) fun i s' hs' =>
      ⟨(i, s'.stream.length), Nat.lt_min.mpr ⟨hs', Nat.lt_succ_self _⟩, hiterate _ s'⟩
  exact htakes s hs (Nat.lt_min.mpr ⟨hn, Nat.lt_succ_self _⟩)

end

end Takes

section Accepts

/-- The parser reads tokens of these kinds and stops before `rest`. -/
def Accepts (x : Parse α) (ks : List Token.Kind) (rest : Stream) (post : α → Prop) : Prop :=
  ∀ s : Reader, s.stream.Begins ks rest →
    Meets x s (fun a s' => s'.stream = rest ∧ post a) fun _ => False

/-- The same if there are at most `n` tokens. -/
def Within (n : Nat) (x : Parse α) (ks : List Token.Kind) (rest : Stream) (post : α → Prop) : Prop :=
  ks.length ≤ n → Accepts x ks rest post

/-- The kind of the token after `ks`, with `rest` behind them. -/
def NextKind (ks : List Token.Kind) (rest : Stream) (k : Token.Kind) : Prop :=
  ks.head? = some k ∨ ks = [] ∧ rest.head.Shows k

variable {n : Nat} {post : α → Prop} {Q : β → Prop} {ks ks' : List Token.Kind} {rest : Stream} {k : Token.Kind}

theorem Within.bind {x : Parse β} {f : β → Parse α} (hx : ∀ st, st.Begins ks' rest → Within n x ks st Q)
    (hf : ∀ b, Q b → Within n (f b) ks' rest post) : Within n (x >>= f) (ks ++ ks') rest post := by
  intro hn s hs
  rw [List.length_append] at hn
  obtain ⟨st, hst, hrest⟩ := Stream.begins_append.mp hs
  apply (hx st hrest (by omega) s hst).bind
  rintro b s₁ ⟨hs₁, hb⟩
  exact hf b hb (by omega) s₁ (hs₁ ▸ hrest)

theorem Within.last {x : Parse β} {f : β → Parse α} (hx : Within n x ks rest Q)
    (hf : ∀ b, Q b → Within n (f b) [] rest post) : Within n (x >>= f) ks rest post := by
  rw [← List.append_nil ks]
  exact .bind (fun st hst => Stream.begins_nil.mp hst ▸ hx) hf

theorem Within.mono {x : Parse α} {post' : α → Prop} (h : Within n x ks rest post')
    (hpost : ∀ a, post' a → post a) : Within n x ks rest post := fun hn s hs =>
  (h hn s hs).mono fun a _ ha => ⟨ha.1, hpost a ha.2⟩

theorem within_pure {a : α} (h : post a) : Within n (pure a) [] rest post := by
  rintro - s hs
  cases hs
  exact ⟨rfl, h⟩

theorem within_enter_bind {rule : Rule} {f : Unit → Parse α} (h : Within n (f ()) ks rest post) :
    Within n (enter rule >>= f) ks rest post :=
  fun hn s hs => h hn { s with trail := (rule, s.seen) :: s.trail } hs

theorem within_mark {position : Position} {f : Mark → α} (h : ∀ m, post (f m)) :
    Within n (do return f (← mark position)) [] rest post := by
  rintro - s hs
  cases hs
  exact ⟨rfl, h _⟩

theorem NextKind.shows {s : Stream} (h : NextKind ks rest k) (hs : s.Begins ks rest) : s.head.Shows k := by
  rcases h with h | ⟨rfl, h⟩
  · cases hs with
    | nil => cases h
    | cons _ hk _ => exact Option.some.inj h ▸ hk
  · cases hs
    exact h

theorem within_peek_bind {f : Token → Parse α} (hk : NextKind ks rest k)
    (h : ∀ t : Token, Within n (f { t with kind := k }) ks rest post) : Within n (peek >>= f) ks rest post := by
  intro hn s hs
  obtain ⟨t, ho, rfl⟩ := hk.shows hs
  have := h t hn { s with seen := s.stream.head.stop } hs
  simpa [peek, ofLexeme, ho] using this

theorem within_next_nested {f : Token → Parse α} (h : ∀ t : Token, Within n (f { t with kind := k }) ks rest post) :
    Within (n + 1) (next >>= f) (k :: ks) rest post := by
  intro hn s hs
  cases hs with
  | cons _ hk hs =>
    obtain ⟨t, ho, rfl⟩ := hk
    have := h t (Nat.le_of_succ_le_succ hn) { s with stream := s.stream.tail, seen := s.stream.head.stop } hs
    simpa [next, ofLexeme, ho] using this

theorem within_next_bind {f : Token → Parse α} (h : ∀ t : Token, Within n (f { t with kind := k }) ks rest post) :
    Within n (next >>= f) (k :: ks) rest post := fun hn =>
  within_next_nested h (Nat.le_succ_of_le hn)

theorem within_sees_true {f : Bool → Parse α} (hk : NextKind ks rest k)
    (h : Within n (f true) ks rest post) : Within n (sees k >>= f) ks rest post := by
  rw [sees, bind_assoc]
  refine within_peek_bind hk fun t => ?_
  rw [pure_bind, decide_eq_true rfl]
  exact h

theorem within_sees_false {kind : Token.Kind} {f : Bool → Parse α} (hk : NextKind ks rest k)
    (hne : k ≠ kind) (h : Within n (f false) ks rest post) : Within n (sees kind >>= f) ks rest post := by
  rw [sees, bind_assoc]
  refine within_peek_bind hk fun t => ?_
  rw [pure_bind, decide_eq_false hne]
  exact h

theorem within_expect_bind {expected : Expected} {f : Unit → Parse α}
    (h : Within n (f ()) ks rest post) : Within n (expect k expected >>= f) (k :: ks) rest post := by
  rw [expect, bind_assoc]
  refine within_next_bind fun t => ?_
  rw [if_pos rfl]
  exact h

theorem within_symbol_bind {c : Char} {f : Unit → Parse α} (h : Within n (f ()) ks rest post) :
    Within n (symbol c >>= f) (.punct c :: ks) rest post :=
  within_expect_bind h

theorem within_word_bind {w : Keyword} {f : Unit → Parse α} (h : Within n (f ()) ks rest post) :
    Within n (word w >>= f) (.keyword w :: ks) rest post :=
  within_expect_bind h

theorem within_identifier_bind {name : String} {f : String → Parse α}
    (h : Within n (f name) ks rest post) : Within n (identifier >>= f) (.ident name :: ks) rest post := by
  rw [identifier, bind_assoc]
  exact within_next_bind fun t => h

section
variable {γ : Type} {first : Parse γ} {wrap : γ → α} {step : α → Parse (Option α)} {view : α → β}
  {L F : List Token.Kind → β → Prop} {E : β → List Token.Kind → β → Prop} {R : Stream → Prop}

/-- Each step takes a token, so the bound is not reached. -/
theorem within_iterate {a : α} (h : ∀ m, ks.length < m → Within n (repeatUpTo step m a) ks rest post) :
    Within n (iterate step a) ks rest post := fun hn s hs =>
  h (s.stream.length + 1) (by have := hs.length; omega) hn s hs

/-- A loop reads what is defined by recursion on the left. -/
theorem within_loop (hinv : ∀ ks b, L ks b → F ks b ∨ ∃ ks₁ ks₂ b₁, ks = ks₁ ++ ks₂ ∧ ks₂ ≠ [] ∧ L ks₁ b₁ ∧ E b₁ ks₂ b)
    (hfirst : ∀ ks b st, F ks b → R st → Within n first ks st fun x => view (wrap x) = b)
    (hready : ∀ b ks b' st st', E b ks b' → st.Begins ks st' → R st)
    (hstep : ∀ a ks b st, E (view a) ks b → R st → Within n (step a) ks st fun r => ∃ a', r = some a' ∧ view a' = b)
    (hrest : R rest) (hstop : ∀ a, Within n (step a) [] rest (· = none)) {b₀ : β} (h : L ks b₀) :
    Within n (first >>= fun x => iterate step (wrap x)) ks rest (view · = b₀) := by
  -- the steps at the end of the loop read `ks'`; the last step of those before them joins them
  suffices hloop : ∀ l ks b ks', ks.length = l → L ks b → (∀ st, st.Begins ks' rest → R st) →
      (∀ a, view a = b → ∀ m, ks'.length < m → Within n (repeatUpTo step m a) ks' rest (view · = b₀)) →
      Within n (first >>= fun x => iterate step (wrap x)) (ks ++ ks') rest (view · = b₀) by
    rw [← List.append_nil ks]
    refine hloop _ ks b₀ [] rfl h (fun st hst => Stream.begins_nil.mp hst ▸ hrest) fun a ha m hm => ?_
    obtain ⟨m, rfl⟩ := Nat.exists_eq_add_of_lt hm
    refine (hstop a).last fun r hr => ?_
    subst hr
    exact within_pure ha
  intro l
  induction l using Nat.strongRecOn with
  | _ l ih =>
    rintro ks b ks' rfl h hR hlast
    rcases hinv ks b h with h | ⟨ks₁, ks₂, b₁, rfl, hne, h₁, hb⟩
    · exact .bind (fun st hst => hfirst ks b st h (hR st hst)) fun x hx => within_iterate (hlast _ hx)
    · have hpos := List.length_pos_iff.mpr hne
      rw [List.append_assoc]
      refine ih ks₁.length (by simpa) ks₁ b₁ (ks₂ ++ ks') rfl h₁ (fun st hst => ?_) fun a ha m hm => ?_
      · obtain ⟨st', hst', -⟩ := Stream.begins_append.mp hst
        exact hready _ _ _ _ _ hb hst'
      · obtain ⟨m, rfl⟩ := Nat.exists_eq_add_of_lt hm
        refine .bind (fun st hst => hstep a ks₂ b st (ha ▸ hb) (hR st hst)) ?_
        rintro r ⟨a', rfl, ha'⟩
        exact hlast a' ha' _ (by rw [List.length_append]; omega)

end

theorem within_list {item : Parse α} {step : List α → Parse (Option (List α))} {view : α → β} {R : Stream → Prop}
    {L : List Token.Kind → List β → Prop} {O : List Token.Kind → β → Prop} {p : List Token.Kind}
    (hinv : ∀ ks bs, L ks bs → (∃ b, bs = [b] ∧ O ks b) ∨ ∃ ks₁ ks₂ bs₁ b, ks = ks₁ ++ (p ++ ks₂) ∧
      bs = bs₁ ++ [b] ∧ p ++ ks₂ ≠ [] ∧ L ks₁ bs₁ ∧ O ks₂ b)
    (hitem : ∀ ks b st, O ks b → R st → Within n item ks st (view · = b))
    (hready : ∀ ks b st st', O ks b → st.Begins (p ++ ks) st' → R st)
    (hstep : ∀ as ks b st, O ks b → R st →
      Within n (step as) (p ++ ks) st fun r => ∃ a, r = some (as ++ [a]) ∧ view a = b)
    (hrest : R rest) (hstop : ∀ as, Within n (step as) [] rest (· = none)) {bs : List β} (h : L ks bs) :
    Within n (item >>= fun a => iterate step [a]) ks rest (·.map view = bs) := by
  refine within_loop (F := fun ks bs => ∃ b, bs = [b] ∧ O ks b)
    (E := fun bs ks bs' => ∃ b ks', bs' = bs ++ [b] ∧ ks = p ++ ks' ∧ O ks' b) ?_ ?_ ?_ ?_ hrest hstop h
  · intro ks bs h
    refine (hinv ks bs h).imp_right ?_
    rintro ⟨ks₁, ks₂, bs₁, b, hks, hbs, hne, h₁, h₂⟩
    exact ⟨ks₁, p ++ ks₂, bs₁, hks, hne, h₁, b, ks₂, hbs, rfl, h₂⟩
  · rintro ks bs st ⟨b, rfl, hb⟩ hst
    exact (hitem ks b st hb hst).mono fun a ha => by rw [← ha, List.map_singleton]
  · rintro bs ks bs' st st' ⟨b, ks', -, rfl, hb⟩ hst
    exact hready ks' b st st' hb hst
  · rintro as ks bs st ⟨b, ks', rfl, rfl, hb⟩ hst
    refine (hstep as ks' b st hb hst).mono ?_
    rintro r ⟨a, rfl, ha⟩
    exact ⟨_, rfl, by rw [List.map_append, ← ha, List.map_singleton]⟩

end Accepts
end Parse
end MmixCompiler
