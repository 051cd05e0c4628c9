import Clausal.Builtin
import Clausal.Proofs.Arithmetic
import Clausal.Proofs.Decimal.Operations

/-!
# Whole-number arithmetic

An expression over integers has an exact value. Evaluation keeps to it as long as no quotient is
involved. A quotient is a floating-point number, and so is all that is computed from one, so there
evaluation keeps to the exact value only where no rounding is needed.
-/

namespace Clausal

open Decimal (HasValue Representable ExactOrTooLarge)

/-- The operation on exact values. -/
def Operation.onRationals : Operation → ℚ → ℚ → ℚ
  | .add => (· + ·)
  | .sub => (· - ·)
  | .mul => (· * ·)
  | .div => (· / ·)

namespace Term

/-- The exact value of an expression over integers. -/
def exactValue : Term → ℚ
  | .int n => n
  | .compound f [l, r] =>
    match Operation.ofSymbol? f with
    | some op => op.onRationals (exactValue l) (exactValue r)
    | none => 0
  | _ => 0

/-- Whether there is a quotient in an expression; its value is then computed in floating point. -/
def hasQuotient : Term → Bool
  | .compound f [l, r] => f == "/" || hasQuotient l || hasQuotient r
  | _ => false

/-- An expression over integers without zero divisors, in which the exact value of every part is an
integer that has a written form. -/
inductive Whole : Term → Prop
  | int {n : Int} (htext : Number.hasText n = true) : Whole (.int n)
  | operation {f : String} {op : Operation} {l r : Term} (hf : Operation.ofSymbol? f = some op)
      (hl : Whole l) (hr : Whole r) (hdiv : op = .div → r.exactValue ≠ 0) {n : Int}
      (hn : (compound f [l, r]).exactValue = n) (htext : Number.hasText n = true) :
      Whole (.compound f [l, r])

/-- An expression whose evaluation rounds nothing. A quotient of two parts without quotients is
rounded once, or is too large. Where only one of two operands has a quotient, the other one is
rounded first, or is too large. -/
inductive Unrounded : Term → Prop
  | exact {t : Term} (h : t.hasQuotient = false) : Unrounded t
  | quotient {l r : Term} (hl : l.hasQuotient = false) (hr : r.hasQuotient = false)
      (h : ExactOrTooLarge (exactValue (.compound "/" [l, r]))) : Unrounded (.compound "/" [l, r])
  | operation {f : String} {l r : Term} (hl : Unrounded l) (hr : Unrounded r)
      (hquot : l.hasQuotient = true ∨ r.hasQuotient = true)
      (hleft : l.hasQuotient = true ∨ ExactOrTooLarge l.exactValue)
      (hright : r.hasQuotient = true ∨ ExactOrTooLarge r.exactValue)
      (h : Representable (exactValue (.compound f [l, r]))) : Unrounded (.compound f [l, r])

theorem exactValue_operation {f : String} {op : Operation} (hf : Operation.ofSymbol? f = some op)
    (l r : Term) : (compound f [l, r]).exactValue = op.onRationals l.exactValue r.exactValue := by
  rw [exactValue, hf]

theorem hasQuotient_operation (f : String) (l r : Term) :
    (compound f [l, r]).hasQuotient = (f == "/" || l.hasQuotient || r.hasQuotient) := by
  rw [hasQuotient]

theorem Whole.hasText {t : Term} (h : t.Whole) : t.hasText = true := by
  induction h with
  | int htext => exact htext
  | operation _ _ _ _ _ _ ihl ihr => simp [Term.hasText, hasTextAll, ihl, ihr]

theorem Whole.exists_int {t : Term} (h : t.Whole) :
    ∃ n : Int, t.exactValue = n ∧ Number.hasText n = true := by
  cases h with
  | int htext => exact ⟨_, by rw [exactValue], htext⟩
  | operation _ _ _ _ hn htext => exact ⟨_, hn, htext⟩

end Term

/-! ## Values of operations -/

/-- A number has the exact value. -/
def Number.HasValue : Number → ℚ → Prop
  | .int n, v => n = v
  | .float x, v => Decimal.HasValue x v

theorem Number.normalize_of_hasValue {a : Number} {n : Int} (h : a.HasValue n) :
    a.normalize = .int n := by
  cases a with
  | int m =>
      have hm : m = n := Int.cast_injective h
      rw [normalize, hm]
  | float x => simp [normalize, Decimal.whole?_eq_some_iff.mpr h]

theorem Decimal.beq_zero_of_hasValue {x : Float} {v : ℚ} (h : HasValue x v) (hv : v ≠ 0) :
    (x == 0.0) = false := by
  obtain ⟨p, hp, rfl⟩ := h.holds
  have hzero : (0.0 : Float).toModel.unpack = .zero .positive := rfl
  have hbeq : (x == 0.0) = x.toModel.unpack.beq (0.0 : Float).toModel.unpack := rfl
  rw [hbeq, hzero]
  generalize x.toModel.unpack = u at hp
  cases hp with
  | zero negative => exact (hv (Parts.value_zero _ _)).elim
  | finite hp hmax hm => cases p.sign <;> rfl

theorem Number.isZero_of_hasValue {a : Number} {v : ℚ} (h : a.HasValue v) (hv : v ≠ 0) :
    a.isZero = false := by
  cases a with
  | int n =>
      have hn : (n : ℚ) = v := h
      have : n ≠ 0 := by
        rintro rfl
        exact hv (by rw [← hn, Int.cast_zero])
      simpa [isZero] using this
  | float x => exact Decimal.beq_zero_of_hasValue h hv

namespace Operation

variable {op : Operation}

theorem onFloats_hasValue {x y : Float} {v w : ℚ} (hx : HasValue x v) (hy : HasValue y w)
    (hdiv : op = .div → w ≠ 0) (h : Representable (op.onRationals v w)) :
    HasValue (op.onFloats x y) (op.onRationals v w) := by
  cases op with
  | add => exact Decimal.hasValue_add hx hy h
  | sub => exact Decimal.hasValue_sub hx hy h
  | mul => exact Decimal.hasValue_mul hx hy h
  | div => exact Decimal.hasValue_div hx hy (hdiv rfl) h

/-- An integer is rounded before it meets a floating-point number. -/
theorem toFloat?_cases {a : Number} {v : ℚ} (ha : a.HasValue v)
    (h : (∃ x, a = .float x) ∨ ExactOrTooLarge v) :
    a.toFloat? = none ∨ ∃ x, a.toFloat? = some x ∧ HasValue x v := by
  cases a with
  | int n =>
      obtain rfl : (n : ℚ) = v := ha
      exact Decimal.ofInt?_cases (h.resolve_left (by simp))
  | float x => exact .inr ⟨x, rfl, ha⟩

theorem compute_of_isZero {t : Term} (ht : t.hasText = true) {a b : Number}
    (hb : op = .div → b.isZero = false) :
    op.compute t a b = match op.result? a b with
      | some n => .ok n
      | none => .error (.arithmetic (.overflow t)) := by
  have hcond : (op = .div && b.isZero) = false := by
    by_cases hop : op = .div
    · simp [hb hop]
    · simp [hop]
  rw [compute, hcond, overflowIn, if_pos ht]
  rfl

theorem result?_of_float (a b : Number) (h : (∃ x, a = .float x) ∨ ∃ y, b = .float y) :
    op.result? a b = a.toFloat?.bind fun x => b.toFloat?.bind
      fun y => some (.float (op.onFloats x y)) := by
  cases a with
  | int m =>
      cases b with
      | int n => simp at h
      | float y => rfl
  | float x => rfl

/-- An operation in floating point that needs no rounding is exact, unless an
operand is too large. -/
theorem compute_of_representable {t : Term} (ht : t.hasText = true) {a b : Number} {v w : ℚ}
    (ha : a.HasValue v) (hb : b.HasValue w) (hdiv : op = .div → w ≠ 0)
    (hfloat : (∃ x, a = .float x) ∨ ∃ y, b = .float y)
    (hleft : (∃ x, a = .float x) ∨ ExactOrTooLarge v)
    (hright : (∃ y, b = .float y) ∨ ExactOrTooLarge w) (h : Representable (op.onRationals v w)) :
    op.compute t a b = .error (.arithmetic (.overflow t)) ∨
      ∃ x, op.compute t a b = .ok (.float x) ∧ HasValue x (op.onRationals v w) := by
  rw [compute_of_isZero ht fun hop => Number.isZero_of_hasValue hb (hdiv hop),
    result?_of_float a b hfloat]
  obtain hnone | ⟨x, hx, hxv⟩ := toFloat?_cases ha hleft
  · exact .inl (by rw [hnone]; rfl)
  · obtain hnone | ⟨y, hy, hyw⟩ := toFloat?_cases hb hright
    · exact .inl (by rw [hx, hnone]; rfl)
    · exact .inr ⟨op.onFloats x y, by rw [hx, hy]; rfl, onFloats_hasValue hxv hyw hdiv h⟩

theorem ofSymbol?_div {f : String} (h : ofSymbol? f = some .div) : f = "/" := by
  rw [ofSymbol?.eq_def] at h
  split at h <;> simp_all

end Operation

/-! ## Values of expressions -/

namespace Term

variable (look : String → Except Fault Number)

/-- Without quotients, evaluation is exact. -/
theorem Whole.evaluateWith_of_exact {t : Term} (hw : t.Whole) (h : t.hasQuotient = false) :
    ∃ n : Int, t.evaluateWith look = .ok (.int n) ∧ t.exactValue = n := by
  induction hw with
  | int htext => exact ⟨_, rfl, by rw [exactValue]⟩
  | @operation f op l r hf hl hr hdiv n hn htext ihl ihr =>
      obtain ⟨⟨hslash, hleft⟩, hright⟩ : (f ≠ "/" ∧ l.hasQuotient = false) ∧
          r.hasQuotient = false := by
        simpa [hasQuotient_operation] using h
      obtain ⟨m, hm, hmv⟩ := ihl hleft
      obtain ⟨k, hk, hkv⟩ := ihr hright
      have hop : op ≠ .div := by
        rintro rfl
        exact hslash (Operation.ofSymbol?_div hf)
      have hvalue := exactValue_operation hf l r
      rw [hmv, hkv] at hvalue
      have hev : (compound f [l, r]).evaluateWith look =
          op.compute (.compound f [l, r]) (.int m) (.int k) := by
        rw [evaluateWith, hf, hm, hk]
      rw [hev, hvalue]
      cases op with
      | add => exact ⟨m + k, rfl, by push_cast; rfl⟩
      | sub => exact ⟨m - k, rfl, by push_cast; rfl⟩
      | mul => exact ⟨m * k, rfl, by push_cast; rfl⟩
      | div => exact (hop rfl).elim

/-- Where nothing is rounded, evaluation is exact, unless something is too large for a
floating-point number. -/
theorem Unrounded.evaluateWith {t : Term} (hu : t.Unrounded) (hw : t.Whole) :
    (∃ s, t.evaluateWith look = .error (.arithmetic (.overflow s))) ∨
      ∃ a, t.evaluateWith look = .ok a ∧ a.HasValue t.exactValue ∧
        (t.hasQuotient = true → ∃ x, a = .float x) := by
  induction hu with
  | exact h =>
      obtain ⟨n, hev, hn⟩ := hw.evaluateWith_of_exact look h
      exact .inr ⟨.int n, hev, hn.symm, by simp [h]⟩
  | @quotient l r hl hr h =>
      have htext := hw.hasText
      cases hw with
      | operation hf hlw hrw hdiv hn _ =>
          obtain rfl := Option.some.inj hf
          -- Both operands are integers, so only the quotient itself can be rounded.
          obtain ⟨m, hm, hmv⟩ := hlw.evaluateWith_of_exact look hl
          obtain ⟨k, hk, hkv⟩ := hrw.evaluateWith_of_exact look hr
          have hzero : (k : ℚ) ≠ 0 := hkv ▸ hdiv rfl
          have hvalue : exactValue (.compound "/" [l, r]) = (m : ℚ) / k := by
            rw [exactValue_operation hf, hmv, hkv]
            rfl
          have hev : (compound "/" [l, r]).evaluateWith look =
              Operation.compute .div (.compound "/" [l, r]) (.int m) (.int k) := by
            rw [Term.evaluateWith, hf, hm, hk]
          have hkvalue : (Number.int k).HasValue k := rfl
          rw [hev, Operation.compute_of_isZero htext
            fun _ => Number.isZero_of_hasValue hkvalue hzero, hvalue]
          rw [hvalue] at h
          obtain hnone | ⟨x, hx, hxv⟩ := Decimal.ofQuotient?_cases (by exact_mod_cast hzero) h
          · exact .inl ⟨.compound "/" [l, r], by simp [Operation.result?, Operation.onInts, hnone]⟩
          · exact .inr
              ⟨.float x, by simp [Operation.result?, Operation.onInts, hx], hxv, fun _ => ⟨x, rfl⟩⟩
  | @operation f l r hl hr hquot hleft hright h ihl ihr =>
      have htext := hw.hasText
      cases hw with
      | @operation f op l r hf hlw hrw hdiv n hn _ =>
          obtain ⟨s, hs⟩ | ⟨a, ha, hav, hafloat⟩ := ihl hlw
          · exact .inl ⟨s, by rw [Term.evaluateWith, hf, hs]⟩
          obtain ⟨s, hs⟩ | ⟨b, hb, hbv, hbfloat⟩ := ihr hrw
          · exact .inl ⟨s, by rw [Term.evaluateWith, hf, ha, hs]⟩
          -- One operand at least is a floating-point number, so the other one becomes one too.
          have hev : (compound f [l, r]).evaluateWith look =
              op.compute (.compound f [l, r]) a b := by
            rw [Term.evaluateWith, hf, ha, hb]
          have hvalue := exactValue_operation hf l r
          rw [hvalue] at h
          obtain hover | ⟨x, hx, hxv⟩ := Operation.compute_of_representable htext hav hbv hdiv
            (hquot.imp hafloat hbfloat) (hleft.imp_left hafloat) (hright.imp_left hbfloat) h
          · exact .inl ⟨_, hev.trans hover⟩
          · exact .inr ⟨.float x, hev.trans hx, hvalue ▸ hxv, fun _ => ⟨x, rfl⟩⟩

end Term

theorem Unifier.unify_unbound_int (u : Unifier) {b : Bindings} {x : String}
    (hx : b.get? x = none) {n : Int} (hn : Number.hasText n = true) :
    u.unify (.var x) (.int n) b = .ok (some (b.insert x (.int n))) := by
  have hrun : ∀ k, Unify.terms u.occursCheck (k + 1) (.var x) (.int n) b [] =
      (.unified (b.insert x (.int n)), [.bound x (.int n), .comparing (.var x) (.int n)]) := by
    intro k
    have hdrawn : b.occurs? x (.int n) = some false := rfl
    have hvar : b.resolve (.var x) = .var x := Bindings.deref_of_unbound hx
    have hint : b.resolve (.int n) = .int n := rfl
    simp only [Unify.terms, hvar, hint, Unify.resolved, Unify.bind, hdrawn]
    split <;> rfl
  rw [Unifier.unify, Unifier.run, Unify.within]
  simp only [hrun]
  simp [Unify.conclude, Step.hasText, Term.hasText, hn]

namespace Builtin

variable {u : Unifier} {b : Bindings} {x : String} {t : Term}

theorem solve_is_unbound (hx : b.get? x = none) (ht : ∀ y, t ≠ .var y) (negated : Bool) :
    solve u ⟨"is", [.var x, t], negated⟩ b =
      match valueTerm? t b with
      | .error e => .error e
      | .ok none => .ok none
      | .ok (some value) => u.unify (.var x) value b := by
  have hresolved : solve u ⟨"is", [.var x, t], negated⟩ b =
      solveResolved u "is" (b.resolve (.var x)) (b.resolve t) b := rfl
  rw [hresolved, Bindings.resolve, Bindings.deref_of_unbound hx, Bindings.resolve_of_nonvar ht]
  rfl

/-- Whole-number arithmetic binds an unbound variable to the exact value of an expression in which
nothing is rounded, or fails because something is too large for a floating-point number. -/
theorem solve_is_whole (hx : b.get? x = none) (hw : t.Whole) (hu : t.Unrounded) (negated : Bool) :
    ∃ n : Int, t.exactValue = n ∧
      (solve u ⟨"is", [.var x, t], negated⟩ b = .ok (some (b.insert x (.int n))) ∨
        solve u ⟨"is", [.var x, t], negated⟩ b = .ok none ∧
          ∃ s, b.evaluate t = .error (.arithmetic (.overflow s))) := by
  obtain ⟨n, hn, htext⟩ := hw.exists_int
  have hnonvar : ∀ y, t ≠ .var y := fun y => by rintro rfl; cases hw
  refine ⟨n, hn, ?_⟩
  rw [solve_is_unbound hx hnonvar]
  obtain ⟨s, hs⟩ | ⟨a, ha, hav, -⟩ := hu.evaluateWith (b.numberOf (b.count + 1)) hw
  · have hev : b.evaluate t = .error (.arithmetic (.overflow s)) := hs
    have hnone : valueTerm? t b = .ok none := by rw [valueTerm?, hev]
    exact .inr ⟨by rw [hnone], s, hev⟩
  · have hev : b.evaluate t = .ok a := ha
    have hvalue : valueTerm? t b = .ok (some (.int n)) := by
      rw [valueTerm?, hev]
      simp only [Number.normalize_of_hasValue (hn ▸ hav)]
      rfl
    exact .inl (by rw [hvalue]; exact u.unify_unbound_int hx htext)

theorem representable_of_whole {x : Float} {n : Int} (h : Decimal.whole? x = some n) :
    Representable n :=
  ⟨x, Decimal.whole?_eq_some_iff.mp h⟩

/-- A quotient that is multiplied and lessened by integers. -/
theorem solve_is_whole_mixed :
    let quotient := Term.compound "/" [.int 12, .int 4]
    let product := Term.compound "*" [quotient, .int 5]
    let t := Term.compound "-" [product, .int 8]
    t.Whole ∧ t.Unrounded ∧ ∃ n : Int, t.exactValue = n ∧
      (solve {} ⟨"is", [.var "X", t], false⟩ ∅ = .ok (some ((∅ : Bindings).insert "X" (.int n))) ∨
        solve {} ⟨"is", [.var "X", t], false⟩ ∅ = .ok none ∧
          ∃ s, (∅ : Bindings).evaluate t = .error (.arithmetic (.overflow s))) := by
  intro quotient product t
  have hleaf : ∀ n : Int, (Term.int n).exactValue = n := fun n => by rw [Term.exactValue]
  have hquotient : quotient.exactValue = (3 : Int) := by
    rw [Term.exactValue_operation rfl, hleaf, hleaf]
    norm_num [Operation.onRationals]
  have hproduct : product.exactValue = (15 : Int) := by
    rw [Term.exactValue_operation rfl, hquotient, hleaf]
    norm_num [Operation.onRationals]
  have ht : t.exactValue = (7 : Int) := by
    rw [Term.exactValue_operation rfl, hproduct, hleaf]
    norm_num [Operation.onRationals]
  have hw : t.Whole := by
    refine .operation rfl (.operation rfl (.operation rfl (.int ?_) (.int ?_) (fun _ => ?_)
      hquotient ?_) (.int ?_) (by decide) hproduct ?_) (.int ?_) (by decide) ht ?_
    case refine_3 => rw [hleaf]; norm_num
    all_goals decide +kernel
  have hu : t.Unrounded := by
    refine .operation
      (.operation (.quotient rfl rfl ?_) (.exact rfl) (.inl rfl) (.inl rfl) ?_ ?_) (.exact rfl)
      (.inl rfl) (.inl rfl) ?_ ?_
    · exact .inl (hquotient ▸ representable_of_whole (x := 3.0) (by decide +kernel))
    · exact .inr (.inl (hleaf 5 ▸ representable_of_whole (x := 5.0) (by decide +kernel)))
    · exact hproduct ▸ representable_of_whole (x := 15.0) (by decide +kernel)
    · exact .inr (.inl (hleaf 8 ▸ representable_of_whole (x := 8.0) (by decide +kernel)))
    · exact ht ▸ representable_of_whole (x := 7.0) (by decide +kernel)
  exact ⟨hw, hu, solve_is_whole (Bindings.get?_empty "X") hw hu false⟩

/-- The least integer that is rounded when it is divided by one. -/
theorem solve_is_rounded :
    let t := Term.compound "/" [.int 9007199254740993, .int 1]
    t.Whole ∧ t.exactValue = (9007199254740993 : Int) ∧
      solve {} ⟨"is", [.var "X", t], false⟩ ∅ =
        .ok (some ((∅ : Bindings).insert "X" (.int 9007199254740992))) := by
  intro t
  have hvalue : t.exactValue = (9007199254740993 : Int) := by
    rw [Term.exactValue_operation rfl, Term.exactValue, Term.exactValue]
    norm_num [Operation.onRationals]
  have hterm : valueTerm? t ∅ = .ok (some (.int 9007199254740992)) := rfl
  refine ⟨.operation rfl (.int ?_) (.int ?_) (fun _ => ?_) hvalue ?_, hvalue, ?_⟩
  case refine_3 => rw [Term.exactValue]; norm_num
  case refine_5 =>
    rw [solve_is_unbound (Bindings.get?_empty "X") (by simp [t]), hterm]
    exact Unifier.unify_unbound_int _ (Bindings.get?_empty "X") (by decide +kernel)
  all_goals decide +kernel

end Builtin

end Clausal
