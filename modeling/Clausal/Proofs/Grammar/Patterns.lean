import Clausal.Grammar.Token
import Mathlib.Computability.Language

/-!
# The patterns as languages

Each pattern of the tokenizer is a regular language, put together from classes of characters and
fixed texts by concatenation, choice and repetition. The functions that match a pattern take the
longest word of its language that a text starts with, and they fail only where the text starts with
no such word. Matching is greedy and never goes back. That is enough, because no part of a pattern
can start with a character that the part before it could have taken.
-/

namespace Clausal.Grammar

open Text (isBlank isDigit isWordChar)
open scoped Computability

/-! ## Languages -/

namespace Pattern

/-- One character of a class. -/
def oneOf (p : Char → Bool) : Language Char := {w | ∃ c, p c = true ∧ w = [c]}

def fixed (text : List Char) : Language Char := {text}

/-- One or more characters of a class. -/
def someOf (p : Char → Bool) : Language Char := oneOf p * (oneOf p)∗

/-- A percent sign and the rest of its line. -/
def comment : Language Char := fixed ['%'] * (oneOf (· != '\n'))∗

/-- A character of a string, or a backslash and the character that it takes with it. -/
def stringItem : Language Char :=
  oneOf (fun c => c != '"' && c != '\\') + fixed ['\\'] * oneOf (· != '\n')

/-- A string between double quotes. -/
def string : Language Char := fixed ['"'] * (stringItem∗ * fixed ['"'])

/-- A point and digits. -/
def fraction : Language Char := fixed ['.'] * someOf isDigit

/-- An exponent mark, an optional sign and digits. -/
def exponent : Language Char :=
  oneOf (fun c => c == 'e' || c == 'E') *
    ((1 + oneOf fun c => c == '+' || c == '-') * someOf isDigit)

/-- Digits, an optional fraction and an optional exponent. -/
def number : Language Char := someOf isDigit * ((1 + fraction) * (1 + exponent))

/-- A word that does not start with a decimal digit. -/
def name : Language Char := oneOf (fun c => isWordChar c && !isDigit c) * (oneOf isWordChar)∗

/-- An operator of one or two characters. -/
def operator : Language Char :=
  (fixed ['<', '='] + (fixed ['>', '='] + fixed ['=', '<'])) +
    oneOf fun c => ['=', '<', '>', '+', '-', '*', '/'].contains c

/-- The languages of the patterns, in the order in which these are tried. -/
def languages : List (Lexeme × Language Char) :=
  [(.separator, comment),
   (.separator, someOf isBlank),
   (.token .string, string),
   (.token .number, number),
   (.token .name, name),
   (.token .neck, fixed [':', '-']),
   (.token .op, operator),
   (.token .punct, oneOf fun c => ['(', ')', ',', '.'].contains c)]

theorem mem_star_oneOf {p : Char → Bool} {w : List Char} :
    w ∈ (oneOf p)∗ ↔ ∀ c ∈ w, p c = true := by
  rw [Language.mem_kstar]
  constructor
  · rintro ⟨ws, rfl, hws⟩ c hc
    obtain ⟨v, hv, hcv⟩ := List.mem_flatten.mp hc
    obtain ⟨d, hd, rfl⟩ := hws v hv
    exact List.mem_singleton.mp hcv ▸ hd
  · intro hw
    refine ⟨w.map ([·]), (List.flatMap_singleton' w).symm, fun v hv => ?_⟩
    obtain ⟨c, hc, rfl⟩ := List.mem_map.mp hv
    exact ⟨c, hw c hc, rfl⟩

theorem mem_someOf {p : Char → Bool} {w : List Char} :
    w ∈ someOf p ↔ w ≠ [] ∧ ∀ c ∈ w, p c = true := by
  rw [someOf, Language.mem_mul]
  constructor
  · rintro ⟨_, ⟨c, hc, rfl⟩, v, hv, rfl⟩
    simpa [hc] using mem_star_oneOf.mp hv
  · rintro ⟨hne, hw⟩
    obtain ⟨c, v, rfl⟩ := List.exists_cons_of_ne_nil hne
    exact ⟨[c], ⟨c, hw c (by simp), rfl⟩, v, mem_star_oneOf.mpr
      fun d hd => hw d (by simp [hd]), rfl⟩

end Pattern

open Pattern

/-! ## Greedy matching -/

/-- The longest word of a language that a text starts with. -/
structure Longest (L : Language Char) (cs m : List Char) : Prop where
  mem : m ∈ L
  isPrefix : m <+: cs
  length_le : ∀ w ∈ L, w <+: cs → w.length ≤ m.length

/-- The text starts with no word of the language. -/
def NoMatch (L : Language Char) (cs : List Char) : Prop := ∀ w ∈ L, ¬ w <+: cs

/-- The function finds the longest word of the language, if there is one. -/
structure Recognizes (f : List Char → Option (List Char)) (L : Language Char) : Prop where
  longest : ∀ {cs m}, f cs = some m → Longest L cs m
  noMatch : ∀ {cs}, f cs = none → NoMatch L cs

theorem Longest.unique {L : Language Char} {cs m m' : List Char} (h : Longest L cs m)
    (h' : Longest L cs m') : m = m' := by
  have hlen := le_antisymm (h'.length_le m h.mem h.isPrefix) (h.length_le m' h'.mem h'.isPrefix)
  exact (List.prefix_of_prefix_length_le h.isPrefix h'.isPrefix hlen.le).eq_of_length hlen

/-- The first character, if it belongs to the class. -/
def one? (p : Char → Bool) : List Char → Option (List Char)
  | [] => none
  | c :: _ => if p c then some [c] else none

/-- The characters of the class that come first, if there are any. -/
def run? (p : Char → Bool) (cs : List Char) : Option (List Char) :=
  if cs.takeWhile p = [] then none else some (cs.takeWhile p)

def fixed? (text cs : List Char) : Option (List Char) :=
  if text.isPrefixOf cs then some text else none

/-- What the pattern matches, or nothing. -/
def optional? (f : List Char → Option (List Char)) (cs : List Char) : Option (List Char) :=
  some ((f cs).getD [])

/-- One pattern after the other. -/
def andThen (f g : List Char → Option (List Char)) (cs : List Char) : Option (List Char) :=
  (f cs).bind fun a => (g (cs.drop a.length)).map (a ++ ·)

namespace Recognizes

variable {f g : List Char → Option (List Char)} {A B : Language Char}

theorem congr (h : Recognizes f A) (hfg : ∀ cs, g cs = f cs) : Recognizes g A := by
  rwa [funext hfg]

/-- A word that is found at the start of every text in which it stands, and nothing
else, is recognized. -/
theorem of_append (hsound : ∀ {cs m}, f cs = some m → m ∈ A ∧ m <+: cs)
    (hfinds : ∀ m ∈ A, ∀ rest, f (m ++ rest) = some m) : Recognizes f A where
  longest := by
    intro cs m h
    refine ⟨(hsound h).1, (hsound h).2, ?_⟩
    rintro w hw ⟨rest, rfl⟩
    rw [hfinds w hw rest] at h
    exact (congrArg List.length (Option.some.inj h)).le
  noMatch := by
    rintro cs h w hw ⟨rest, rfl⟩
    simp [hfinds w hw rest] at h

theorem oneOf (p : Char → Bool) : Recognizes (one? p) (oneOf p) := by
  refine of_append ?_ ?_
  · intro cs m h
    cases cs with
    | nil => simp [one?] at h
    | cons c cs =>
        rw [one?] at h
        split at h
        · next hc => exact Option.some.inj h ▸ ⟨⟨c, hc, rfl⟩, ⟨cs, rfl⟩⟩
        · simp at h
  · rintro _ ⟨c, hc, rfl⟩ rest
    rw [List.singleton_append, one?, if_pos hc]

theorem takeWhile (p : Char → Bool) :
    Recognizes (fun cs => some (cs.takeWhile p)) (Pattern.oneOf p)∗ where
  longest := by
    rintro cs _ ⟨⟩
    refine ⟨mem_star_oneOf.mpr (List.all_eq_true.mp List.all_takeWhile),
      List.takeWhile_prefix p, ?_⟩
    rintro w hw ⟨rest, rfl⟩
    rw [List.takeWhile_append_of_pos (mem_star_oneOf.mp hw), List.length_append]
    exact Nat.le_add_right _ _
  noMatch := by simp

theorem someOf (p : Char → Bool) : Recognizes (run? p) (someOf p) where
  longest := by
    intro cs m h
    rw [run?] at h
    split at h
    · simp at h
    · next hne =>
      obtain rfl := Option.some.inj h
      have hstar : Longest (Pattern.oneOf p)∗ cs (cs.takeWhile p) := (takeWhile p).longest rfl
      refine ⟨mem_someOf.mpr ⟨hne, mem_star_oneOf.mp hstar.mem⟩, hstar.isPrefix, fun w hw => ?_⟩
      exact hstar.length_le w (mem_star_oneOf.mpr (mem_someOf.mp hw).2)
  noMatch := by
    intro cs h w hw hpre
    rw [run?] at h
    split at h
    · next hnil =>
      obtain ⟨hne, hall⟩ := mem_someOf.mp hw
      have hstar : Longest (Pattern.oneOf p)∗ cs (cs.takeWhile p) := (takeWhile p).longest rfl
      have hlen := hstar.length_le w (mem_star_oneOf.mpr hall) hpre
      rw [hnil] at hlen
      exact hne (List.length_eq_zero_iff.mp (Nat.le_zero.mp hlen))
    · simp at h

/-- No word of the second language starts with a character by which a word of the first one goes on,
so the first part can be as long as possible. -/
theorem andThen (hf : Recognizes f A) (hg : Recognizes g B)
    (hstop : ∀ a c w, a ∈ A → a ++ c :: w ∈ A → ∀ v, c :: v ∉ B) :
    Recognizes (andThen f g) (A * B) := by
  -- A word of both parts has the longest first part, or nothing in its second part.
  have hparts : ∀ {a rest a' b'}, Longest A (a ++ rest) a → a' ∈ A → b' ∈ B →
      a' ++ b' <+: a ++ rest → a' = a ∧ b' <+: rest ∨ a'.length ≤ a.length ∧ b' = [] := by
    intro a rest a' b' ha ha' hb' hpre
    have hlen := ha.length_le a' ha' ((List.prefix_append a' b').trans hpre)
    obtain ⟨w, rfl⟩ := List.prefix_of_prefix_length_le ((List.prefix_append a' b').trans hpre)
      (List.prefix_append a rest) hlen
    rw [List.append_assoc, List.prefix_append_right_inj] at hpre
    cases w with
    | nil => exact .inl ⟨(List.append_nil a').symm, hpre⟩
    | cons c w =>
        cases b' with
        | nil => exact .inr ⟨hlen, rfl⟩
        | cons c' v =>
            obtain rfl : c' = c := (List.cons_prefix_cons.mp hpre).1
            exact (hstop a' c' w ha' ha.mem v hb').elim
  have hsplit : ∀ {cs a}, f cs = some a → ∃ rest, cs = a ++ rest ∧ cs.drop a.length = rest := by
    intro cs a h
    obtain ⟨rest, rfl⟩ := (hf.longest h).isPrefix
    exact ⟨rest, rfl, List.drop_left⟩
  constructor
  · intro cs m h
    obtain ⟨a, ha, hmap⟩ := Option.bind_eq_some_iff.mp h
    obtain ⟨b, hb, rfl⟩ := Option.map_eq_some_iff.mp hmap
    obtain ⟨rest, rfl, hdrop⟩ := hsplit ha
    rw [hdrop] at hb
    have hA := hf.longest ha
    have hB := hg.longest hb
    refine ⟨Language.append_mem_mul hA.mem hB.mem, ?_, fun w hw hpre => ?_⟩
    · exact (List.prefix_append_right_inj a).mpr hB.isPrefix
    · obtain ⟨a', ha', b', hb', rfl⟩ := Language.mem_mul.mp hw
      rw [List.length_append, List.length_append]
      rcases hparts hA ha' hb' hpre with ⟨rfl, hrest⟩ | ⟨hlen, rfl⟩
      · exact Nat.add_le_add_left (hB.length_le b' hb' hrest) _
      · exact Nat.add_le_add hlen (Nat.zero_le _)
  · intro cs h w hw hpre
    obtain ⟨a', ha', b', hb', rfl⟩ := Language.mem_mul.mp hw
    cases ha : f cs with
    | none => exact hf.noMatch ha a' ha' ((List.prefix_append a' b').trans hpre)
    | some a =>
        obtain ⟨rest, rfl, hdrop⟩ := hsplit ha
        have hnone : g rest = none := by
          simpa [Grammar.andThen, ha, hdrop] using h
        rcases hparts (hf.longest ha) ha' hb' hpre with ⟨_, hrest⟩ | ⟨_, rfl⟩
        · exact hg.noMatch hnone b' hb' hrest
        · exact hg.noMatch hnone [] hb' List.nil_prefix

/-- No word of the second language starts with a character that words of the first one have. -/
theorem andThen_of_chars (P : Char → Prop) (hf : Recognizes f A) (hg : Recognizes g B)
    (hA : ∀ a ∈ A, ∀ c ∈ a, P c) (hB : ∀ c v, c :: v ∈ B → ¬ P c) :
    Recognizes (Grammar.andThen f g) (A * B) :=
  hf.andThen hg fun a c w _ hmore v hv => hB c v hv (hA _ hmore c (by simp))

/-- The words of the first language have one length, so they do not go on. -/
theorem andThen_of_length {n : Nat} (hf : Recognizes f A) (hg : Recognizes g B)
    (hlen : ∀ a ∈ A, a.length = n) : Recognizes (Grammar.andThen f g) (A * B) := by
  refine hf.andThen hg fun a c w ha hmore => ?_
  have hlonger := hlen _ hmore
  rw [List.length_append, hlen a ha, List.length_cons] at hlonger
  omega

theorem optional (hf : Recognizes f A) : Recognizes (optional? f) (1 + A) where
  longest := by
    rintro cs _ ⟨⟩
    cases h : f cs with
    | none =>
        refine ⟨.inl rfl, List.nil_prefix, ?_⟩
        rintro w (hw | hw) hpre
        · exact (congrArg List.length ((Language.mem_one w).mp hw)).le
        · exact (hf.noMatch h w hw hpre).elim
    | some m =>
        obtain ⟨hmem, hpre, hle⟩ := hf.longest h
        refine ⟨.inr hmem, hpre, ?_⟩
        rintro w (hw | hw)
        · simp [(Language.mem_one w).mp hw]
        · exact hle w hw
  noMatch := by simp [optional?]

/-- The words of the first language are longer, so it is tried first. -/
theorem orElse (hf : Recognizes f A) (hg : Recognizes g B)
    (hlen : ∀ a ∈ A, ∀ b ∈ B, b.length ≤ a.length) :
    Recognizes (fun cs => (f cs).or (g cs)) (A + B) where
  longest := by
    intro cs m h
    cases ha : f cs with
    | none =>
        have hb : Longest B cs m := hg.longest (by simpa [ha] using h)
        refine ⟨.inr hb.mem, hb.isPrefix, ?_⟩
        rintro w (hw | hw) hpre
        · exact (hf.noMatch ha w hw hpre).elim
        · exact hb.length_le w hw hpre
    | some a =>
        obtain rfl : a = m := by simpa [ha] using h
        have hA := hf.longest ha
        refine ⟨.inl hA.mem, hA.isPrefix, ?_⟩
        rintro w (hw | hw) hpre
        · exact hA.length_le w hw hpre
        · exact hlen a hA.mem w hw
  noMatch := by
    intro cs h w hw
    obtain ⟨ha, hb⟩ := Option.or_eq_none_iff.mp h
    rcases hw with hw | hw
    · exact hf.noMatch ha w hw
    · exact hg.noMatch hb w hw

theorem fixed (text : List Char) : Recognizes (fixed? text) (fixed text) := by
  refine of_append ?_ ?_
  · intro cs m h
    rw [fixed?] at h
    split at h
    · next hpre => exact Option.some.inj h ▸ ⟨rfl, List.isPrefixOf_iff_prefix.mp hpre⟩
    · simp at h
  · rintro m rfl rest
    rw [fixed?, if_pos (List.isPrefixOf_iff_prefix.mpr (List.prefix_append _ _))]

end Recognizes

/-! ## The patterns of the tokenizer -/

theorem length_of_mem_oneOf {p : Char → Bool} : ∀ w ∈ oneOf p, w.length = 1 := by
  rintro _ ⟨c, _, rfl⟩
  rfl

theorem length_of_mem_fixed {text : List Char} : ∀ w ∈ fixed text, w.length = text.length := by
  rintro _ rfl
  rfl

theorem fixed?_eq_none {text cs : List Char} (h : ∀ rest, cs ≠ text ++ rest) :
    fixed? text cs = none := by
  rw [fixed?, if_neg]
  rw [List.isPrefixOf_iff_prefix]
  rintro ⟨rest, rfl⟩
  exact h rest rfl

theorem recognizes_comment : Recognizes comment? comment := by
  refine ((Recognizes.fixed ['%']).andThen_of_length (.takeWhile _) length_of_mem_fixed).congr
    fun cs => ?_
  rw [comment?.eq_def]
  split
  · rfl
  · next hne => rw [andThen, fixed?_eq_none hne, Option.bind_none]

theorem recognizes_blank : Recognizes blank? (someOf isBlank) := by
  refine (Recognizes.someOf isBlank).congr fun cs => ?_
  rw [blank?, run?]
  split
  · next h => rw [if_pos h]
  · next h => rw [if_neg h]

theorem recognizes_name : Recognizes name? name := by
  refine ((Recognizes.oneOf _).andThen_of_length (.takeWhile _) length_of_mem_oneOf).congr
    fun cs => ?_
  cases cs with
  | nil => rfl
  | cons c cs =>
      rw [name?, andThen, one?]
      split <;> simp

theorem recognizes_neck : Recognizes neck? (fixed [':', '-']) := by
  refine (Recognizes.fixed [':', '-']).congr fun cs => ?_
  rw [neck?.eq_def]
  split
  · rfl
  · next hne => exact (fixed?_eq_none hne).symm

theorem recognizes_op : Recognizes op? operator := by
  refine (((Recognizes.fixed ['<', '=']).orElse
    ((Recognizes.fixed ['>', '=']).orElse (Recognizes.fixed ['=', '<']) ?_) ?_).orElse
      (Recognizes.oneOf _) ?_).congr fun cs => ?_
  · rintro _ rfl _ rfl
    exact le_rfl
  · rintro _ rfl _ (rfl | rfl) <;> exact le_rfl
  · rintro _ (rfl | rfl | rfl) _ ⟨c, _, rfl⟩ <;> exact Nat.le_succ 1
  · rw [op?.eq_def]
    split
    · rfl
    · rfl
    · rfl
    · next c cs hless hmore hequal =>
      have hne : ∀ {a b : Char}, (∀ tail, c = a → cs = b :: tail → False) →
          ∀ rest, c :: cs ≠ [a, b] ++ rest :=
        fun hab rest heq => hab rest (List.cons.inj heq).1 (List.cons.inj heq).2
      rw [fixed?_eq_none (hne hless), fixed?_eq_none (hne hmore), fixed?_eq_none (hne hequal)]
      rfl
    · rfl

theorem recognizes_punct : Recognizes punct? (oneOf fun c => ['(', ')', ',', '.'].contains c) :=
  (Recognizes.oneOf _).congr fun cs => by cases cs <;> rfl

/-! ### Numerals -/

def fraction? : List Char → Option (List Char) := andThen (fixed? ['.']) (run? isDigit)

/-- Digits that come first, perhaps behind a sign. -/
def signed? : List Char → Option (List Char) :=
  andThen (optional? (one? fun c => c == '+' || c == '-')) (run? isDigit)

def exponent? : List Char → Option (List Char) :=
  andThen (one? fun c => c == 'e' || c == 'E') signed?

theorem takeWhile_eq_getD (p : Char → Bool) (cs : List Char) :
    cs.takeWhile p = (run? p cs).getD [] := by
  rw [run?]
  split
  · next h => rw [h, Option.getD_none]
  · rw [Option.getD_some]

theorem ne_nil_of_run? {p : Char → Bool} {cs m : List Char} (h : run? p cs = some m) : m ≠ [] :=
  (mem_someOf.mp ((Recognizes.someOf p).longest h).mem).1

theorem ne_nil_of_signed? {cs m : List Char} (h : signed? cs = some m) : m ≠ [] := by
  rw [signed?, andThen, optional?, Option.bind_some] at h
  obtain ⟨b, hb, rfl⟩ := Option.map_eq_some_iff.mp h
  simp [ne_nil_of_run? hb]

/-- A character in front of what is found, if anything is found. -/
theorem mark_eq {f : List Char → Option (List Char)} {cs : List Char}
    (hne : ∀ m, f cs = some m → m ≠ []) (c : Char) :
    (match (f cs).getD [] with
      | [] => []
      | ds => c :: ds) = ((f cs).map ([c] ++ ·)).getD [] := by
  cases h : f cs with
  | none => rfl
  | some m =>
      obtain ⟨d, m, rfl⟩ := List.exists_cons_of_ne_nil (hne m h)
      rfl

theorem one?_eq_none {a b : Char} {cs : List Char} (ha : ∀ rest, cs = a :: rest → False)
    (hb : ∀ rest, cs = b :: rest → False) : one? (fun c => c == a || c == b) cs = none := by
  cases cs with
  | nil => rfl
  | cons c cs =>
      have hca : c ≠ a := fun h => ha cs (h ▸ rfl)
      have hcb : c ≠ b := fun h => hb cs (h ▸ rfl)
      simp [one?, hca, hcb]

theorem fractionPart_eq (cs : List Char) : some (fractionPart cs) = optional? fraction? cs := by
  rw [fractionPart.eq_def]
  split
  · rw [takeWhile_eq_getD]
    exact congrArg some (mark_eq (fun m => ne_nil_of_run?) '.')
  · next hne =>
      rw [optional?, fraction?, andThen, fixed?_eq_none hne, Option.bind_none, Option.getD_none]

theorem signedDigits_eq (cs : List Char) : signedDigits cs = (signed? cs).getD [] := by
  rw [signedDigits.eq_def]
  split
  · rw [takeWhile_eq_getD]
    exact mark_eq (fun m => ne_nil_of_run?) '+'
  · rw [takeWhile_eq_getD]
    exact mark_eq (fun m => ne_nil_of_run?) '-'
  · next hplus hminus =>
    rw [signed?, andThen, optional?, one?_eq_none hplus hminus, Option.getD_none, Option.bind_some,
      List.length_nil, List.drop_zero, takeWhile_eq_getD]
    simp

theorem exponentPart_eq (cs : List Char) : some (exponentPart cs) = optional? exponent? cs := by
  rw [exponentPart.eq_def]
  split
  · rw [signedDigits_eq]
    exact congrArg some (mark_eq (fun m => ne_nil_of_signed?) 'e')
  · rw [signedDigits_eq]
    exact congrArg some (mark_eq (fun m => ne_nil_of_signed?) 'E')
  · next hlower hupper =>
    rw [optional?, exponent?, andThen, one?_eq_none hlower hupper, Option.bind_none,
      Option.getD_none]

theorem head_of_mem_fraction {c : Char} {v : List Char} (h : c :: v ∈ 1 + fraction) : c = '.' := by
  rcases h with h | ⟨_, rfl, w, _, heq⟩
  · exact absurd ((Language.mem_one _).mp h) (by simp)
  · exact (List.cons.inj heq).1.symm

theorem head_of_mem_exponent {c : Char} {v : List Char} (h : c :: v ∈ 1 + exponent) :
    c = 'e' ∨ c = 'E' := by
  rcases h with h | ⟨_, ⟨d, hd, rfl⟩, w, _, heq⟩
  · exact absurd ((Language.mem_one _).mp h) (by simp)
  · exact (List.cons.inj heq).1 ▸ by simpa using hd

theorem recognizes_exponent : Recognizes exponent? exponent := by
  have hsign : Recognizes _ (1 + oneOf fun c => c == '+' || c == '-') :=
    (Recognizes.oneOf _).optional
  refine (Recognizes.oneOf _).andThen_of_length ?_ length_of_mem_oneOf
  refine hsign.andThen_of_chars (fun c => c = '+' ∨ c = '-') (.someOf _) ?_ ?_
  · rintro a (ha | ⟨d, hd, rfl⟩) c hc
    · simp [(Language.mem_one a).mp ha] at hc
    · exact List.mem_singleton.mp hc ▸ by simpa using hd
  · rintro c v hv (rfl | rfl)
    · exact absurd ((mem_someOf.mp hv).2 '+' (by simp)) (by decide)
    · exact absurd ((mem_someOf.mp hv).2 '-' (by simp)) (by decide)

/-- A numeral goes on with digits as long as it can, and neither a point nor an
exponent mark is one. -/
theorem recognizes_number : Recognizes number? number := by
  have hfraction : Recognizes (optional? fraction?) (1 + fraction) :=
    ((Recognizes.fixed ['.']).andThen_of_length (.someOf _) length_of_mem_fixed).optional
  have hexponent : Recognizes (optional? exponent?) (1 + exponent) := recognizes_exponent.optional
  have hrest : Recognizes (andThen (optional? fraction?) (optional? exponent?))
      ((1 + fraction) * (1 + exponent)) := by
    refine hfraction.andThen_of_chars (fun c => c = '.' ∨ isDigit c = true) hexponent ?_ ?_
    · rintro a (ha | ⟨_, rfl, w, hw, rfl⟩) c hc
      · simp [(Language.mem_one a).mp ha] at hc
      · exact (List.mem_cons.mp hc).imp_right ((mem_someOf.mp hw).2 c)
    · intro c v hv
      rcases head_of_mem_exponent hv with rfl | rfl <;> decide
  refine (Recognizes.andThen_of_chars (fun c => isDigit c = true) (.someOf _) hrest ?_ ?_).congr
    fun cs => ?_
  · exact fun a ha => (mem_someOf.mp ha).2
  · rintro c v ⟨a, ha, b, hb, heq⟩
    cases a with
    | nil =>
        obtain rfl : b = c :: v := heq
        rcases head_of_mem_exponent hb with rfl | rfl <;> decide
    | cons d a =>
        obtain rfl : d = c := (List.cons.inj heq).1
        rw [head_of_mem_fraction ha]
        decide
  · rw [number?, andThen, run?]
    split
    · next h => rw [if_pos h, Option.bind_none]
    · next h =>
      rw [if_neg h, Option.bind_some, andThen, ← fractionPart_eq, Option.bind_some,
        ← exponentPart_eq]
      simp

/-! ### Strings -/

/-- The rest of a string behind its opening quote. -/
def stringRest : Language Char := stringItem∗ * fixed ['"']

theorem append_mem_stringRest {item m : List Char} (hitem : item ∈ stringItem)
    (hm : m ∈ stringRest) :
    item ++ m ∈ stringRest := by
  obtain ⟨body, hbody, quote, hquote, rfl⟩ := hm
  rw [← List.append_assoc]
  have hmore : item ++ body ∈ stringItem∗ :=
    Set.mem_of_mem_of_subset (Language.append_mem_mul hitem hbody)
      (mul_kstar_le_kstar (a := stringItem))
  exact Language.append_mem_mul hmore hquote

theorem stringRest?_append_item {item cs m : List Char} (hitem : item ∈ stringItem)
    (h : stringRest? cs = some m) : stringRest? (item ++ cs) = some (item ++ m) := by
  rcases hitem with ⟨c, hc, rfl⟩ | ⟨_, rfl, _, ⟨c, hc, rfl⟩, rfl⟩
  · have hplain : c ≠ '"' ∧ c ≠ '\\' := by simpa using hc
    rw [List.singleton_append, stringRest?.eq_def]
    split <;> simp_all
  · have hend : (c == '\n') = false := by simpa using hc
    simp [stringRest?, hend, h]

theorem stringRest?_of_mem {m : List Char} (h : m ∈ stringRest) (rest : List Char) :
    stringRest? (m ++ rest) = some m := by
  obtain ⟨body, hbody, quote, rfl, rfl⟩ := Language.mem_mul.mp h
  obtain ⟨items, rfl, hitems⟩ := Language.mem_kstar.mp hbody
  clear h hbody
  induction items with
  | nil => rfl
  | cons item items ih =>
      have hmore := ih fun y hy => hitems y (List.mem_cons_of_mem _ hy)
      rw [List.flatten_cons, List.append_assoc item, List.append_assoc item]
      exact stringRest?_append_item (hitems item List.mem_cons_self) hmore

theorem of_stringRest? {cs m : List Char} (h : stringRest? cs = some m) :
    m ∈ stringRest ∧ m <+: cs := by
  have hmore : ∀ {item cs m : List Char}, item ∈ stringItem → m ∈ stringRest ∧ m <+: cs →
      item ++ m ∈ stringRest ∧ item ++ m <+: item ++ cs := fun hitem hm =>
    ⟨append_mem_stringRest hitem hm.1, (List.prefix_append_right_inj _).mpr hm.2⟩
  fun_induction stringRest? cs generalizing m with
  | case1 | case3 | case4 | case6 | case8 => simp at h
  | case2 cs =>
      obtain rfl := Option.some.inj h
      exact ⟨⟨[], Language.nil_mem_kstar _, ['"'], rfl, rfl⟩, ⟨cs, rfl⟩⟩
  | case5 c cs hend m' hm' ih =>
      obtain rfl := Option.some.inj h
      have hitem : ['\\', c] ∈ stringItem :=
        .inr ⟨['\\'], rfl, [c], ⟨c, by simpa using hend, rfl⟩, rfl⟩
      exact hmore hitem (ih hm')
  | case7 c cs hquote hlast hslash m' hm' ih =>
      obtain rfl := Option.some.inj h
      have hplain : c ≠ '\\' := by
        rintro rfl
        cases cs with
        | nil => exact hlast rfl rfl
        | cons d cs => exact hslash d cs rfl rfl
      have hitem : [c] ∈ stringItem := .inl ⟨c, by simpa using ⟨hquote, hplain⟩, rfl⟩
      exact hmore hitem (ih hm')

theorem recognizes_string : Recognizes string? string := by
  refine ((Recognizes.fixed ['"']).andThen_of_length (.of_append of_stringRest? fun m hm =>
    stringRest?_of_mem hm) length_of_mem_fixed).congr fun cs => ?_
  rw [string?.eq_def]
  split
  · next cs =>
    have hquote : fixed? ['"'] ('"' :: cs) = some ['"'] := rfl
    rw [andThen, hquote, Option.bind_some, List.length_singleton, List.drop_one, List.tail_cons]
    cases stringRest? cs <;> rfl
  · next hne => rw [andThen, fixed?_eq_none hne, Option.bind_none]

/-! ## The first pattern that matches -/

/-- The longest word that the text starts with, of the first language that has one. -/
def FirstLongest (Ls : List (Lexeme × Language Char)) (cs : List Char) (l : Lexeme)
    (m : List Char) : Prop :=
  ∃ before L after, Ls = before ++ (l, L) :: after ∧ (∀ e ∈ before, NoMatch e.2 cs) ∧ Longest L cs m

theorem Longest.not_noMatch {L : Language Char} {cs m : List Char} (h : Longest L cs m) :
    ¬ NoMatch L cs :=
  fun hnone => hnone m h.mem h.isPrefix

section FirstLongest

variable {L : Language Char} {Ls : List (Lexeme × Language Char)} {cs m m' : List Char}
  {l l' : Lexeme}

theorem firstLongest_cons_of_noMatch (h : NoMatch L cs) :
    FirstLongest ((l', L) :: Ls) cs l m ↔ FirstLongest Ls cs l m := by
  constructor
  · rintro ⟨before, L', after, heq, hbefore, hL'⟩
    cases before with
    | nil =>
        obtain ⟨he, _⟩ := List.cons.inj heq
        obtain ⟨_, rfl⟩ := Prod.mk.inj he
        exact (hL'.not_noMatch h).elim
    | cons e before =>
        exact ⟨before, L', after, (List.cons.inj heq).2, fun e he => hbefore e (by simp [he]), hL'⟩
  · rintro ⟨before, L', after, rfl, hbefore, hL'⟩
    exact ⟨(l', L) :: before, L', after, rfl, List.forall_mem_cons.mpr ⟨h, hbefore⟩, hL'⟩

theorem firstLongest_cons_of_longest (h : Longest L cs m') :
    FirstLongest ((l', L) :: Ls) cs l m ↔ l' = l ∧ m' = m := by
  constructor
  · rintro ⟨before, L', after, heq, hbefore, hL'⟩
    cases before with
    | nil =>
        obtain ⟨he, _⟩ := List.cons.inj heq
        obtain ⟨rfl, rfl⟩ := Prod.mk.inj he
        exact ⟨rfl, h.unique hL'⟩
    | cons e before =>
        obtain rfl := (List.cons.inj heq).1
        exact (h.not_noMatch (hbefore _ List.mem_cons_self)).elim
  · rintro ⟨rfl, rfl⟩
    exact ⟨[], L, Ls, rfl, by simp, h⟩

/-- What a text starts with does not change when the text is cut off somewhere behind it. -/
theorem FirstLongest.of_prefix {cs' : List Char} (h : FirstLongest Ls cs l m) (hcs' : cs' <+: cs)
    (hm : m <+: cs') : FirstLongest Ls cs' l m := by
  obtain ⟨before, L, after, heq, hbefore, hL⟩ := h
  refine ⟨before, L, after, heq, fun e he w hw hpre => hbefore e he w hw (hpre.trans hcs'),
    hL.mem, hm, ?_⟩
  exact fun w hw hpre => hL.length_le w hw (hpre.trans hcs')

end FirstLongest

theorem patterns_recognize :
    List.Forall₂ (fun e e' => e.1 = e'.1 ∧ Recognizes e.2 e'.2) patterns languages :=
  .cons ⟨rfl, recognizes_comment⟩ <| .cons ⟨rfl, recognizes_blank⟩ <|
    .cons ⟨rfl, recognizes_string⟩ <| .cons ⟨rfl, recognizes_number⟩ <|
    .cons ⟨rfl, recognizes_name⟩ <| .cons ⟨rfl, recognizes_neck⟩ <|
    .cons ⟨rfl, recognizes_op⟩ <| .cons ⟨rfl, recognizes_punct⟩ .nil

theorem findSome?_cases {ps : List (Lexeme × (List Char → Option (List Char)))}
    {Ls : List (Lexeme × Language Char)}
    (h : List.Forall₂ (fun e e' => e.1 = e'.1 ∧ Recognizes e.2 e'.2) ps Ls) (cs : List Char) :
    (∀ l m, (ps.findSome? fun (l, f) => (f cs).map (l, ·)) = some (l, m) ↔ FirstLongest Ls cs l m) ∧
      ((ps.findSome? fun (l, f) => (f cs).map (l, ·)) = none → ∀ e ∈ Ls, NoMatch e.2 cs) := by
  induction h with
  | nil => simp [FirstLongest]
  | @cons p e ps Ls hp _ ih =>
      obtain ⟨l', f⟩ := p
      obtain ⟨_, L⟩ := e
      obtain ⟨rfl, hL⟩ : l' = _ ∧ Recognizes f L := hp
      cases hf : f cs with
      | none =>
          have hfind : (((l', f) :: ps).findSome? fun (l, f) => (f cs).map (l, ·)) =
              ps.findSome? fun (l, f) => (f cs).map (l, ·) := by
            rw [List.findSome?_cons]
            simp [hf]
          have hnone := hL.noMatch hf
          rw [hfind]
          exact ⟨fun l m => (ih.1 l m).trans (firstLongest_cons_of_noMatch hnone).symm,
            fun h => List.forall_mem_cons.mpr ⟨hnone, ih.2 h⟩⟩
      | some m' =>
          have hfind : (((l', f) :: ps).findSome? fun (l, f) => (f cs).map (l, ·)) =
              some (l', m') := by
            rw [List.findSome?_cons]
            simp [hf]
          rw [hfind]
          refine ⟨fun l m => ?_, fun h => by simp at h⟩
          rw [firstLongest_cons_of_longest (hL.longest hf), Option.some.injEq, Prod.mk.injEq]

/-- The tokenizer takes the longest match of the first pattern that matches. -/
theorem lexeme?_eq_some_iff {cs m : List Char} {l : Lexeme} :
    lexeme? cs = some (l, m) ↔ FirstLongest languages cs l m :=
  (findSome?_cases patterns_recognize cs).1 l m

theorem noMatch_of_lexeme? {cs : List Char} (h : lexeme? cs = none) :
    ∀ e ∈ languages, NoMatch e.2 cs :=
  (findSome?_cases patterns_recognize cs).2 h

end Clausal.Grammar
