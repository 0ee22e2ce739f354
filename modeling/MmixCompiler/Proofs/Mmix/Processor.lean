import Mathlib.Logic.Relation
import MmixCompiler.Mmix.Select
import MmixCompiler.Proofs.Mmix.Octabyte

/-! The processor: what every operation does to registers, special registers and memory, and where it
goes. A call is one step, which may do anything to memory and to the special registers. What an
operation reads, writes and jumps to is what its instruction says. -/

namespace MmixCompiler.Mmix

/-- The quotient of signed words, rounded down; by zero it is zero. -/
def quotient (x y : Octa) : Octa := .ofInt 64 (x.toInt.fdiv y.toInt)

/-- The remainder that belongs to the quotient: it has the sign of the divisor, and by zero it is the
dividend. -/
def remainder (x y : Octa) : Octa := .ofInt 64 (x.toInt.fmod y.toInt)

def Alu.word : Alu → Octa → Octa → Octa
  | .or, x, y => x ||| y
  | .xor, x, y => x ^^^ y
  | .and, x, y => x &&& y
  | .add, x, y => x + y
  | .sub, x, y => x - y
  | .mul, x, y => x * y
  | .div, x, y => quotient x y
  | .cmp, x, y => if x.toInt < y.toInt then -1 else if x = y then 0 else 1

def Sign.holds : Sign → Octa → Bool
  | .zero, x => x.toInt = 0
  | .nonzero, x => x.toInt ≠ 0
  | .negative, x => x.toInt < 0
  | .positive, x => 0 < x.toInt
  | .nonpositive, x => x.toInt ≤ 0
  | .nonnegative, x => 0 ≤ x.toInt

/-- Registers, special registers and memory. -/
structure Core where
  regs : Reg → Octa
  specials : Special → Octa
  mem : Memory

namespace Core

def set (c : Core) (r : Reg) (x : Octa) : Core :=
  { c with regs := fun q => if q = r then x else c.regs q }

variable {c : Core} {q r : Reg} {x y : Octa}

@[simp] theorem set_regs : (c.set r x).regs q = if q = r then x else c.regs q := rfl

@[simp] theorem set_specials : (c.set r x).specials = c.specials := rfl

@[simp] theorem set_mem : (c.set r x).mem = c.mem := rfl

@[simp] theorem set_set : (c.set r x).set r y = c.set r y := by
  simp only [set, mk.injEq, and_true]
  funext q
  split <;> rfl

theorem set_self : c.set r (c.regs r) = c := by
  have hregs : (c.set r (c.regs r)).regs = c.regs := funext fun q => by
    rw [set_regs]
    split <;> simp_all
  exact congrArg (fun regs => { c with regs }) hregs

end Core

def Value.word (c : Core) : Value → Octa
  | .reg r => c.regs r
  | .imm n => .ofNat 64 n

/-- What surrounds code: the addresses of labels, and what calls leave in memory and the special
registers, given the stack pointer and memory. -/
structure World where
  address : Label → Octa
  call : Label → Octa → Memory → Memory × (Special → Octa)

/-- The effect of an operation and the label that it goes to, if it does not go on to the next line. A
return leaves the code. -/
def Op.exec (w : World) (c : Core) : Op → Option (Core × Option Label)
  | .set dst n => some (c.set dst (.ofNat 64 n), none)
  | .inc part dst n => some (c.set dst (c.regs dst + BitVec.ofNat 64 n <<< part.shift), none)
  | .neg dst n src => some (c.set dst (.ofNat 64 n - c.regs src), none)
  | .alu .div dst lhs rhs =>
    some ({ c.set dst (quotient (c.regs lhs) (rhs.word c)) with
      specials := fun s => if s = .remainder then remainder (c.regs lhs) (rhs.word c) else c.specials s },
      none)
  | .alu op dst lhs rhs => some (c.set dst (op.word (c.regs lhs) (rhs.word c)), none)
  | .test sign dst src => some (c.set dst (if sign.holds (c.regs src) then 1 else 0), none)
  | .get dst special => some (c.set dst (c.specials special), none)
  | .put special src =>
    some ({ c with specials := fun s => if s = special then c.regs src else c.specials s }, none)
  | .address dst label => some (c.set dst (w.address label), none)
  | .load dst base offset => some (c.set dst (c.mem (cell (c.regs base + offset.word c))), none)
  | .store src base offset =>
    some ({ c with mem := c.mem.set (cell (c.regs base + offset.word c)) (c.regs src) }, none)
  | .branch src yes _ => some (c, if c.regs src = 0 then none else some yes)
  | .jump label => some (c, some label)
  | .call _ label =>
    some ({ c with mem := (w.call label (c.regs .sp) c.mem).1,
                   specials := (w.call label (c.regs .sp) c.mem).2 }, none)
  | .ret _ => none

/-- Two states that only temporaries outside a list tell apart. -/
structure Core.Same (ts : List Temp) (c d : Core) : Prop where
  temps : ∀ t ∈ ts, d.regs (.temp t) = c.regs (.temp t)
  hard : ∀ n, d.regs (.hard n) = c.regs (.hard n)
  specials : d.specials = c.specials
  mem : d.mem = c.mem

/-- The register that an operation writes. -/
def Op.target? : Op → Option Reg
  | .set dst _ | .inc _ dst _ | .neg dst _ _ | .alu _ dst _ _ | .test _ dst _ | .get dst _ | .address dst _
  | .load dst _ _ => some dst
  | _ => none

/-- An instruction tells what its operation does: what it reads are its uses, so that nothing else makes
a difference to what it does; what it writes are its defs, and it leaves all other registers as they are;
and where it goes is among its jumps. -/
structure Op.Accounted (w : World) (op : Op) (o : Oper) : Prop where
  reads : ∀ c d : Core, c.Same o.uses d → ∀ c' l, op.exec w c = some (c', l) →
    ∃ d', op.exec w d = some (d', l) ∧ c'.Same o.defs d'
  defs : ∀ t, t ∈ o.defs ↔ op.target? = some (.temp t)
  writes : ∀ c c' l, op.exec w c = some (c', l) → ∀ r, op.target? ≠ some r → c'.regs r = c.regs r
  jumps : ∀ c c' l, op.exec w c = some (c', some l) → l ∈ o.jumps

section
variable {w : World} {c d : Core} {ts : List Temp}

theorem Core.Same.reg (h : c.Same ts d) {r : Reg} (hr : ∀ t ∈ r.temp?, t ∈ ts) : d.regs r = c.regs r := by
  cases r with
  | temp t => exact h.temps t (hr t rfl)
  | hard n => exact h.hard n

theorem Core.Same.src {op : Op} (h : c.Same op.uses d) {r : Reg} (hr : .src r ∈ op.args) : d.regs r = c.regs r := by
  refine h.reg fun t ht => ?_
  cases op with
  | inc => simp [Op.args] at hr
  | _ => exact List.mem_filterMap.mpr ⟨_, hr, ht⟩

theorem Core.Same.value {op : Op} (h : c.Same op.uses d) {v : Value} (hv : .ofValue v ∈ op.args) :
    v.word d = v.word c := by
  cases v with
  | reg r => exact h.src hv
  | imm n => rfl

theorem Reg.temp?_eq_some {r : Reg} {t : Temp} : r.temp? = some t ↔ r = .temp t := by
  cases r <;> simp [Reg.temp?]

theorem Op.Accounted.of_write {op : Op} {dst : Reg} {f : Core → Octa} {g : Core → Special → Octa}
    (hexec : ∀ c, op.exec w c = some (⟨(c.set dst (f c)).regs, g c, c.mem⟩, none))
    (htarget : op.target? = some dst) (hdefs : op.defs = dst.temp?.toList)
    (hsame : ∀ c d : Core, c.Same op.uses d → f d = f c ∧ g d = g c) : op.Accounted w op.oper := by
  have hmem : ∀ t, t ∈ op.defs ↔ dst = .temp t := fun t => by
    rw [hdefs, Option.mem_toList, Reg.temp?_eq_some]
  refine ⟨fun c d h c' l hc => ?_, fun t => ?_, fun c c' l hc r hr => ?_, fun c c' l hc => ?_⟩
  · rw [hexec, Option.some.injEq, Prod.mk.injEq] at hc
    obtain ⟨rfl, rfl⟩ := hc
    obtain ⟨hf, hg⟩ := hsame c d h
    refine ⟨_, hexec d, fun t ht => ?_, fun n => ?_, hg, h.mem⟩
    · simp [(hmem t).mp ht, hf]
    · simp [hf, h.hard n]
  · rw [htarget, Option.some.injEq]
    exact hmem t
  · rw [hexec, Option.some.injEq, Prod.mk.injEq] at hc
    obtain ⟨rfl, rfl⟩ := hc
    have hne : r ≠ dst := fun heq => hr (heq ▸ htarget)
    simp [hne]
  · simp [hexec] at hc

theorem Op.Accounted.of_keep {op : Op} {g : Core → Special → Octa} {m : Core → Memory}
    {l : Core → Option Label} (hexec : ∀ c, op.exec w c = some (⟨c.regs, g c, m c⟩, l c))
    (htarget : op.target? = none) (hdefs : op.defs = []) (hjumps : ∀ c, ∀ k ∈ l c, k ∈ op.jumps)
    (hsame : ∀ c d : Core, c.Same op.uses d → g d = g c ∧ m d = m c ∧ l d = l c) : op.Accounted w op.oper := by
  have hmem : ∀ t, t ∉ op.defs := by simp [hdefs]
  refine ⟨fun c d h c' k hc => ?_, fun t => ?_, fun c c' k hc r hr => ?_, fun c c' k hc => ?_⟩
  · rw [hexec, Option.some.injEq, Prod.mk.injEq] at hc
    obtain ⟨rfl, rfl⟩ := hc
    obtain ⟨hg, hm, hl⟩ := hsame c d h
    exact ⟨⟨d.regs, g d, m d⟩, by rw [hexec, hl], fun t ht => absurd ht (hmem t), h.hard, hg, hm⟩
  · simpa [htarget] using hmem t
  · rw [hexec, Option.some.injEq, Prod.mk.injEq] at hc
    obtain ⟨rfl, rfl⟩ := hc
    rfl
  · rw [hexec, Option.some.injEq, Prod.mk.injEq] at hc
    exact hjumps c k hc.2

theorem Op.accounted (w : World) (op : Op) : op.Accounted w op.oper := by
  cases op with
  | set dst n =>
    exact .of_write (f := fun _ => .ofNat 64 n) (fun _ => rfl) rfl (by cases dst <;> rfl) fun _ _ h => ⟨rfl, h.specials⟩
  | inc part dst n =>
    refine .of_write (f := fun c => c.regs dst + BitVec.ofNat 64 n <<< part.shift) (fun _ => rfl) rfl
      (by cases dst <;> rfl) fun c d h => ⟨?_, h.specials⟩
    rw [h.reg (r := dst) (by simp [Op.uses])]
  | neg dst n src =>
    refine .of_write (f := fun c => .ofNat 64 n - c.regs src) (fun _ => rfl) rfl (by cases dst <;> rfl)
      fun c d h => ⟨?_, h.specials⟩
    rw [h.src (r := src) (by simp [Op.args])]
  | alu op dst lhs rhs =>
    have hlhs : ∀ c d : Core, c.Same (Op.alu op dst lhs rhs).uses d → d.regs lhs = c.regs lhs :=
      fun c d h => h.src (by simp [Op.args])
    have hrhs : ∀ c d : Core, c.Same (Op.alu op dst lhs rhs).uses d → rhs.word d = rhs.word c :=
      fun c d h => h.value (by simp [Op.args])
    have hdefs : (Op.alu op dst lhs rhs).defs = dst.temp?.toList := by
      cases dst <;> cases rhs <;> rfl
    cases op with
    | div =>
      refine .of_write (f := fun c => quotient (c.regs lhs) (rhs.word c)) (fun _ => rfl) rfl hdefs fun c d h => ?_
      simp only [hlhs c d h, hrhs c d h, h.specials, and_self]
    | _ =>
      refine .of_write (f := fun c => Alu.word _ (c.regs lhs) (rhs.word c)) (fun _ => rfl) rfl hdefs
        fun c d h => ⟨?_, h.specials⟩
      rw [hlhs c d h, hrhs c d h]
  | test sign dst src =>
    refine .of_write (f := fun c => if sign.holds (c.regs src) then 1 else 0) (fun _ => rfl) rfl
      (by cases dst <;> rfl) fun c d h => ⟨?_, h.specials⟩
    rw [h.src (r := src) (by simp [Op.args])]
  | get dst special =>
    refine .of_write (f := fun c => c.specials special) (fun _ => rfl) rfl (by cases dst <;> rfl)
      fun c d h => ⟨by rw [h.specials], h.specials⟩
  | put special src =>
    refine .of_keep (l := fun _ => none) (fun _ => rfl) rfl rfl (by simp) fun c d h => ⟨?_, h.mem, rfl⟩
    simp only [h.specials, h.src (r := src) (by simp [Op.args])]
  | address dst label =>
    exact .of_write (f := fun _ => w.address label) (fun _ => rfl) rfl (by cases dst <;> rfl)
      fun _ _ h => ⟨rfl, h.specials⟩
  | load dst base offset =>
    refine .of_write (f := fun c => c.mem (cell (c.regs base + offset.word c))) (fun _ => rfl) rfl
      (by cases dst <;> cases offset <;> rfl) fun c d h => ⟨?_, h.specials⟩
    rw [h.mem, h.value (v := offset) (by simp [Op.args]), h.src (r := base) (by simp [Op.args])]
  | store src base offset =>
    refine .of_keep (l := fun _ => none) (fun _ => rfl) rfl (by cases offset <;> rfl) (by simp)
      fun c d h => ⟨h.specials, ?_, rfl⟩
    rw [h.mem, h.value (v := offset) (by simp [Op.args]), h.src (r := base) (by simp [Op.args]),
      h.src (r := src) (by simp [Op.args])]
  | branch src yes no =>
    refine .of_keep (fun _ => rfl) rfl rfl (fun c l hl => ?_) fun c d h => ⟨h.specials, h.mem, ?_⟩
    · split at hl
      · cases hl
      · obtain rfl : yes = l := by simpa using hl
        simp [Op.jumps]
    · rw [h.src (r := src) (by simp [Op.args])]
  | jump label =>
    exact .of_keep (l := fun _ => some label) (fun _ => rfl) rfl rfl (by simp [Op.jumps])
      fun c d h => ⟨h.specials, h.mem, rfl⟩
  | call kept label =>
    refine .of_keep (l := fun _ => none) (fun _ => rfl) rfl rfl (by simp) fun c d h => ?_
    have hsp : d.regs .sp = c.regs .sp := h.hard 254
    simp [h.mem, hsp]
  | ret kept =>
    have hnone : ∀ c r, Op.exec w c (.ret kept) ≠ some r := fun c r h => by cases h
    exact ⟨fun c _ _ _ _ h => absurd h (hnone c _), fun t => by simp [Op.oper, Op.defs, Op.args, Op.target?],
      fun c _ _ h => absurd h (hnone c _), fun c _ _ h => absurd h (hnone c _)⟩

/-- What operations on the frame do with words is what the processor does. -/
theorem Op.exec_of_outcome? {op : Op} {v : Option Octa} {mem : Memory} (w : World)
    (h : op.outcome? (op.uses.map fun t => c.regs (.temp t)) c.mem = some (v, mem)) :
    (∃ x dst, v = some x ∧ op.target? = some dst ∧ op.exec w c = some (c.set dst x, none)) ∨
      v = none ∧ op.exec w c = some ({ c with mem }, none) := by
  generalize hwords : op.uses.map (fun t => c.regs (.temp t)) = words at h
  -- as many words as the operation takes means that it reads temporaries
  unfold Op.outcome? at h
  split at h <;> cases h
  · exact .inl ⟨_, _, rfl, rfl, rfl⟩
  · next dst _ _ => cases dst <;> cases hwords; exact .inl ⟨_, _, rfl, rfl, rfl⟩
  · next src _ => cases src <;> cases hwords; exact .inl ⟨_, _, rfl, rfl, rfl⟩
  · next lhs rhs _ _ => cases lhs <;> cases rhs <;> cases hwords; exact .inl ⟨_, _, rfl, rfl, rfl⟩
  · next base _ _ => cases base <;> cases hwords; exact .inl ⟨_, _, rfl, rfl, rfl⟩
  · next src base _ _ _ => cases src <;> cases base <;> cases hwords; exact .inr ⟨rfl, rfl⟩

end

/-- One step of code: the number of a line and the state. -/
def stepLine (w : World) (code : List Line) (at_ : Nat × Core) : Option (Nat × Core) :=
  match code[at_.1]? with
  | none => none
  | some (.label _) => some (at_.1 + 1, at_.2)
  | some (.op op) =>
    match op.exec w at_.2 with
    | none => none
    | some (c, none) => some (at_.1 + 1, c)
    | some (c, some l) => (labelIndex? (code.map Line.instr) l).map (·, c)

/-- Steps lead from one line and state to another. -/
def Reaches (w : World) (code : List Line) : Nat × Core → Nat × Core → Prop :=
  Relation.ReflTransGen fun a b => stepLine w code a = some b

/-- Runs operations one after the other, none of which may jump. -/
def execAll (w : World) : List Op → Core → Option Core
  | [], c => some c
  | op :: ops, c =>
    match op.exec w c with
    | some (d, none) => execAll w ops d
    | _ => none

section
variable {w : World} {c d : Core} {code : List Line} {ops ops' : List Op}

theorem execAll_append : execAll w (ops ++ ops') c = (execAll w ops c).bind (execAll w ops') := by
  induction ops generalizing c with
  | nil => rfl
  | cons op ops ih =>
    simp only [List.cons_append, execAll]
    split
    · exact ih
    · rfl

/-- What operations compute in a temporary is what running them leaves there. -/
theorem execAll_of_compute {a : Temp} {y : Octa} (hops : ∀ op ∈ ops, op.target? = some (.temp a))
    (h : compute a (fun t => c.regs (.temp t)) c.mem ops (c.regs (.temp a)) = some y) :
    execAll w ops c = some (c.set (.temp a) y) := by
  induction ops generalizing c with
  | nil =>
    cases h
    rw [execAll, Core.set_self]
  | cons op ops ih =>
    obtain ⟨hop, hops⟩ := List.forall_mem_cons.mp hops
    have htemps : (fun t => if t = a then c.regs (.temp a) else c.regs (.temp t)) = fun t => c.regs (.temp t) := by
      funext t
      split <;> simp_all
    rw [compute, htemps] at h
    split at h
    · next x mem hx =>
      obtain ⟨_, dst, hv, hdst, hexec⟩ | ⟨hnone, -⟩ := Op.exec_of_outcome? w hx
      · cases hv
        obtain rfl : dst = .temp a := Option.some.inj (hdst.symm.trans hop)
        rw [execAll, hexec]
        refine (ih (c := c.set (.temp a) x) hops ?_).trans (by rw [Core.set_set])
        rw [Core.set_regs, if_pos rfl, ← h]
        exact compute_congr fun t ht => by simp [ht]
      · cases hnone
    · cases h

/-- Operations that stand in the code are run in as many steps. -/
theorem reaches_of_execAll {index : Nat} (hcode : ∀ k op, ops[k]? = some op → code[index + k]? = some (.op op))
    (h : execAll w ops c = some d) : Reaches w code (index, c) (index + ops.length, d) := by
  induction ops generalizing index c with
  | nil =>
    cases h
    exact .refl
  | cons op ops ih =>
    rw [execAll] at h
    split at h
    · next c' hop =>
      have hline : code[index]? = some (.op op) := hcode 0 op rfl
      have hstep : stepLine w code (index, c) = some (index + 1, c') := by simp [stepLine, hline, hop]
      have hrest : Reaches w code (index + 1, c') (index + 1 + ops.length, d) := by
        refine ih (fun k op' hk => ?_) h
        rw [Nat.add_right_comm]
        exact hcode (k + 1) op' hk
      rw [List.length_cons, Nat.add_comm ops.length 1, ← Nat.add_assoc]
      exact .head hstep hrest
    · cases h

/-- Code ends in one state. -/
theorem Reaches.end_eq {a : Nat × Core} (h : Reaches w code a (code.length, c))
    (h' : Reaches w code a (code.length, d)) : c = d := by
  have hend : ∀ {c d : Core}, Reaches w code (code.length, c) (code.length, d) → c = d := fun {c d} h => by
    obtain heq | ⟨b, hstep, -⟩ := h.cases_head
    · exact congrArg Prod.snd heq
    · simp [stepLine] at hstep
  have hunique : Relator.RightUnique fun a b => stepLine w code a = some b :=
    fun _ _ _ hb hd => Option.some.inj (hb.symm.trans hd)
  rcases Relation.ReflTransGen.total_of_right_unique hunique h h' with hcd | hdc
  · exact hend hcd
  · exact (hend hdc).symm

/-- Loading a constant leaves it in the register, whatever was there. -/
theorem execAll_loadConst (r : Reg) (value : Int) :
    execAll w (loadConst r value) c = some (c.set r (.ofInt 64 value)) := by
  have hwydes := add_wydes value.natAbs
  unfold loadConst
  simp only [List.cons_append, List.nil_append, execAll, Op.exec, Core.set_set, Core.set_regs, if_true,
    Part.shift, hwydes]
  split
  · next hneg =>
    have habs : (value.natAbs : Int) = -value := by omega
    have hvalue : BitVec.ofNat 64 0 - BitVec.ofNat 64 value.natAbs = BitVec.ofInt 64 value := by
      rw [← BitVec.ofInt_natCast 64 value.natAbs, habs, BitVec.ofInt_neg]
      simp
    simp only [execAll, Op.exec, Core.set_set, Core.set_regs, if_true, hvalue]
  · next hneg =>
    have habs : (value.natAbs : Int) = value := by omega
    rw [execAll, ← BitVec.ofInt_natCast, habs]

end

end MmixCompiler.Mmix
