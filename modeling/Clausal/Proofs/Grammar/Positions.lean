import Clausal.Proofs.Grammar.Cutting
import Clausal.Proofs.Grammar.Patterns

/-!
# Where tokens stand

The tokens of a text and what separates them make up the whole text. Every token stands where it
says, and it is the longest match of the first pattern that matches there. Between tokens there are
only blanks and comments. A text without tokens has a character at which no pattern matches, the
fault names its place, and everything before it can be cut into tokens.
-/

namespace Clausal

def Token.stop (t : Token) : Nat := t.pos + t.text.length

namespace Grammar

open Text (isBlank)
open Pattern
open scoped Computability

/-- The characters of a text from one place up to another one. -/
def stretch (cs : List Char) (i j : Nat) : List Char := (cs.drop i).take (j - i)

/-- What can stand between two tokens, in front of the rest of the text: runs of blanks, and
comments that run to the end of their line. -/
inductive Separates : List Char → List Char → Prop
  | nil (rest : List Char) : Separates [] rest
  | blanks {run gap rest : List Char} (hne : run ≠ []) (hrun : ∀ c ∈ run, isBlank c = true)
      (h : Separates gap rest) : Separates (run ++ gap) rest
  | comment {line gap rest : List Char} (hline : '\n' ∉ line)
      (hend : ∀ c ∈ (gap ++ rest).head?, c = '\n') (h : Separates gap rest) :
      Separates ('%' :: line ++ gap) rest

/-- The tokens of a text from a place on. Each starts behind the one before, has its text where it
stands, and is the longest match of the first pattern that matches there; from the first place to
the first token, between two tokens, and from the last one to the end of the text there is only what
separates tokens. -/
structure Tokenized (cs : List Char) (start : Nat) (ts : List Token) : Prop where
  nonempty : ∀ t ∈ ts, t.text ≠ ""
  ordered : ts.Pairwise fun t u => t.pos < u.pos ∧ t.stop ≤ u.pos
  stretch_eq : ∀ t ∈ ts, stretch cs t.pos t.stop = t.text.toList
  firstLongest : ∀ t ∈ ts, FirstLongest languages (cs.drop t.pos) (.token t.kind) t.text.toList
  separates : ∀ i j, (i, j) ∈ (start :: ts.map Token.stop).zip (ts.map Token.pos ++ [cs.length]) →
    i ≤ j ∧ Separates (stretch cs i j) (cs.drop j)

/-! ## Stretches -/

section Stretch

variable {cs m : List Char} {i j : Nat}

theorem drop_eq_append (hm : m <+: cs.drop i) : cs.drop i = m ++ cs.drop (i + m.length) := by
  obtain ⟨rest, hrest⟩ := hm
  rw [← List.drop_drop, ← hrest, List.drop_left]

theorem stretch_prefix (hm : m <+: cs.drop i) : stretch cs i (i + m.length) = m := by
  rw [stretch, drop_eq_append hm, Nat.add_sub_cancel_left, List.take_left]

theorem stretch_eq_append (hm : m <+: cs.drop i) (hj : i + m.length ≤ j) :
    stretch cs i j = m ++ stretch cs (i + m.length) j := by
  have hlen : j - i = m.length + (j - (i + m.length)) := by omega
  rw [stretch, drop_eq_append hm, hlen, List.take_length_add_append, stretch]

theorem stretch_append_drop (hij : i ≤ j) : stretch cs i j ++ cs.drop j = cs.drop i := by
  have hdrop : cs.drop j = (cs.drop i).drop (j - i) := by
    rw [List.drop_drop, Nat.add_sub_cancel' hij]
  rw [stretch, hdrop, List.take_append_drop]

end Stretch

/-! ## Separators -/

/-- A match of a separator goes on what separates tokens. -/
theorem Separates.append {m gap rest : List Char} (h : Separates gap rest)
    (hm : FirstLongest languages (m ++ (gap ++ rest)) .separator m) :
    Separates (m ++ gap) rest := by
  obtain ⟨before, L, after, heq, _, hL⟩ := hm
  have hmem : (Lexeme.separator, L) ∈ languages := heq ▸ List.mem_append_right _ List.mem_cons_self
  obtain rfl | rfl : L = Pattern.comment ∨ L = someOf isBlank := by simpa [languages] using hmem
  · obtain ⟨_, rfl, line, hline, rfl⟩ := Language.mem_mul.mp hL.mem
    have hline' := mem_star_oneOf.mp hline
    refine .comment (fun hmem => by simpa using hline' _ hmem) (fun c hc => ?_) h
    -- any other character would still belong to the comment
    by_contra hne
    obtain ⟨tail, htail⟩ : ∃ tail, gap ++ rest = c :: tail := List.head?_eq_some_iff.mp hc
    have hlonger : ['%'] ++ (line ++ [c]) ∈ Pattern.comment := by
      refine Language.append_mem_mul rfl (mem_star_oneOf.mpr fun d hd => ?_)
      rcases List.mem_append.mp hd with hd | hd
      · exact hline' d hd
      · simpa [List.mem_singleton.mp hd] using hne
    have hle := hL.length_le _ hlonger ⟨tail, by simp [htail]⟩
    simp at hle
  · obtain ⟨hne, hrun⟩ := mem_someOf.mp hL.mem
    exact .blanks hne hrun h

theorem FirstLongest.isPrefix {Ls : List (Lexeme × Language Char)} {cs m : List Char} {l : Lexeme}
    (h : FirstLongest Ls cs l m) : m <+: cs := by
  obtain ⟨_, _, _, _, _, hL⟩ := h
  exact hL.isPrefix

theorem ne_nil_of_mul {A B : Language Char} (h : ∀ a ∈ A, a ≠ []) : ∀ w ∈ A * B, w ≠ [] := by
  rintro _ ⟨a, ha, b, _, rfl⟩
  simp [h a ha]

theorem FirstLongest.ne_nil {cs m : List Char} {l : Lexeme} (h : FirstLongest languages cs l m) :
    m ≠ [] := by
  obtain ⟨before, L, after, heq, _, hL⟩ := h
  have hmem : (l, L) ∈ languages := heq ▸ List.mem_append_right _ List.mem_cons_self
  have hone : ∀ p, ∀ a ∈ oneOf p, a ≠ [] := by
    rintro p _ ⟨c, _, rfl⟩
    simp
  have hsome : ∀ p, ∀ a ∈ someOf p, a ≠ [] := fun p a ha => (mem_someOf.mp ha).1
  have hfixed : ∀ text, text ≠ [] → ∀ a ∈ fixed text, a ≠ [] := by
    rintro text hne _ rfl
    exact hne
  have hall : ∀ e ∈ languages, ∀ w ∈ e.2, w ≠ [] := by
    simp only [languages, List.forall_mem_cons, List.not_mem_nil, IsEmpty.forall_iff,
      implies_true, and_true]
    refine ⟨ne_nil_of_mul (hfixed _ (by simp)), hsome _, ne_nil_of_mul (hfixed _ (by simp)),
      ne_nil_of_mul (hsome _), ne_nil_of_mul (hone _), hfixed _ (by simp), ?_, hone _⟩
    rintro w ((hw | hw | hw) | hw)
    · exact hfixed _ (by simp) w hw
    · exact hfixed _ (by simp) w hw
    · exact hfixed _ (by simp) w hw
    · exact hone _ w hw
  exact hall _ hmem m hL.mem

/-! ## One match more -/

namespace Tokenized

variable {cs m : List Char} {i : Nat} {ts : List Token}

theorem start_le (h : Tokenized cs i ts) : ∀ t ∈ ts, i ≤ t.pos := by
  intro t ht
  cases ts with
  | nil => simp at ht
  | cons u ts =>
      have hfirst : i ≤ u.pos := (h.separates i u.pos (by simp)).1
      rcases List.mem_cons.mp ht with rfl | ht
      · exact hfirst
      · exact hfirst.trans (List.rel_of_pairwise_cons h.ordered ht).1.le

theorem nil (cs : List Char) : Tokenized cs cs.length [] where
  nonempty := by simp
  ordered := .nil
  stretch_eq := by simp
  firstLongest := by simp
  separates := by
    intro i j hij
    obtain ⟨rfl, rfl⟩ : i = cs.length ∧ j = cs.length := by simpa using hij
    refine ⟨le_rfl, ?_⟩
    rw [stretch, Nat.sub_self, List.take_zero]
    exact .nil _

theorem separator (h : Tokenized cs (i + m.length) ts)
    (hm : FirstLongest languages (cs.drop i) .separator m) : Tokenized cs i ts where
  nonempty := h.nonempty
  ordered := h.ordered
  stretch_eq := h.stretch_eq
  firstLongest := h.firstLongest
  separates := by
    -- only the first stretch becomes longer
    obtain ⟨k, ks, hks⟩ : ∃ k ks, ts.map Token.pos ++ [cs.length] = k :: ks :=
      List.exists_cons_of_ne_nil (by simp)
    have hseparates := h.separates
    rw [hks, List.zip_cons_cons] at hseparates ⊢
    intro i' j hij
    rcases List.mem_cons.mp hij with heq | hij
    · obtain ⟨rfl, rfl⟩ := Prod.mk.inj heq
      obtain ⟨hle, hgap⟩ := hseparates _ _ List.mem_cons_self
      refine ⟨(Nat.le_add_right _ _).trans hle, ?_⟩
      rw [stretch_eq_append hm.isPrefix hle]
      refine hgap.append ?_
      rwa [stretch_append_drop hle, ← drop_eq_append hm.isPrefix]
    · exact hseparates i' j (List.mem_cons_of_mem _ hij)

theorem token (h : Tokenized cs (i + m.length) ts) {kind : TokenKind}
    (hm : FirstLongest languages (cs.drop i) (.token kind) m) :
    Tokenized cs i (⟨kind, String.ofList m, i⟩ :: ts) := by
  have hstop : Token.stop ⟨kind, String.ofList m, i⟩ = i + m.length := by
    rw [Token.stop, String.length_ofList]
  have hpos : 0 < m.length := List.length_pos_iff.mpr hm.ne_nil
  constructor
  · refine List.forall_mem_cons.mpr ⟨fun hempty => hm.ne_nil ?_, h.nonempty⟩
    simpa using congrArg String.toList hempty
  · refine List.pairwise_cons.mpr ⟨fun u hu => ?_, h.ordered⟩
    have hle := h.start_le u hu
    rw [hstop]
    exact ⟨by dsimp only; omega, hle⟩
  · refine List.forall_mem_cons.mpr ⟨?_, h.stretch_eq⟩
    rw [hstop, stretch_prefix hm.isPrefix, String.toList_ofList]
  · refine List.forall_mem_cons.mpr ⟨?_, h.firstLongest⟩
    rwa [String.toList_ofList]
  · intro i' j hij
    rw [List.map_cons, List.map_cons, hstop, List.cons_append, List.zip_cons_cons] at hij
    rcases List.mem_cons.mp hij with heq | hij
    · obtain ⟨rfl, rfl⟩ := Prod.mk.inj heq
      refine ⟨le_rfl, ?_⟩
      rw [stretch, Nat.sub_self, List.take_zero]
      exact .nil _
    · exact h.separates i' j hij

theorem append (h : Tokenized cs (i + m.length) ts) {l : Lexeme}
    (hm : FirstLongest languages (cs.drop i) l m) : Tokenized cs i (l.tokens i m ++ ts) := by
  cases l with
  | separator => exact h.separator hm
  | token kind => exact h.token hm

end Tokenized

/-! ## The tokenizer -/

section Tokenizer

variable {cs m : List Char} {i p : Nat} {l : Lexeme}

theorem tokensFrom_drop (hm : FirstLongest languages (cs.drop i) l m) :
    tokensFrom i (cs.drop i) =
      (tokensFrom (i + m.length) (cs.drop (i + m.length))).map (l.tokens i m ++ ·) := by
  have heq := drop_eq_append hm.isPrefix
  rw [heq]
  exact tokensFrom_append hm.ne_nil (lexeme?_eq_some_iff.mpr (heq ▸ hm)) i

/-- What matches in a text matches also if the text ends somewhere behind the match. -/
theorem tokensFrom_stretch (hm : FirstLongest languages (cs.drop i) l m) (hp : i + m.length ≤ p) :
    tokensFrom i (stretch cs i p) =
      (tokensFrom (i + m.length) (stretch cs (i + m.length) p)).map (l.tokens i m ++ ·) := by
  have heq := stretch_eq_append hm.isPrefix hp
  have hcut : FirstLongest languages (stretch cs i p) l m :=
    hm.of_prefix (List.take_prefix _ _) (heq ▸ List.prefix_append _ _)
  rw [heq] at hcut ⊢
  exact tokensFrom_append hm.ne_nil (lexeme?_eq_some_iff.mpr hcut) i

/-- The character at a place cannot be read: no pattern matches there, and the text in front
of it has tokens. -/
structure Unreadable (cs : List Char) (start p : Nat) (c : Char) : Prop where
  start_le : start ≤ p
  getElem? : cs[p]? = some c
  noMatch : ∀ e ∈ languages, NoMatch e.2 (cs.drop p)
  readable : ∃ ts, tokensFrom start (stretch cs start p) = .ok ts

theorem Unreadable.append {c : Char} (h : Unreadable cs (i + m.length) p c)
    (hm : FirstLongest languages (cs.drop i) l m) : Unreadable cs i p c where
  start_le := (Nat.le_add_right _ _).trans h.start_le
  getElem? := h.getElem?
  noMatch := h.noMatch
  readable := by
    obtain ⟨ts, hts⟩ := h.readable
    exact ⟨l.tokens i m ++ ts, by rw [tokensFrom_stretch hm h.start_le, hts]; rfl⟩

theorem unreadable_of_lexeme? {c : Char} {rest : List Char} (hdrop : cs.drop i = c :: rest)
    (hlex : lexeme? (cs.drop i) = none) : Unreadable cs i i c where
  start_le := le_rfl
  getElem? := by rw [← List.head?_drop, hdrop, List.head?_cons]
  noMatch := noMatch_of_lexeme? hlex
  readable := ⟨[], by rw [stretch, Nat.sub_self, List.take_zero, tokensFrom]⟩

theorem tokensFrom_cases (hi : i ≤ cs.length) :
    (∃ ts, tokensFrom i (cs.drop i) = .ok ts ∧ Tokenized cs i ts) ∨
      ∃ p c, tokensFrom i (cs.drop i) = .error (.parse (.unexpectedChar c p)) ∧
      Unreadable cs i p c := by
  -- on the length of the rest, which every match shortens
  induction hn : cs.length - i using Nat.strong_induction_on generalizing i with
  | _ n ih =>
      cases hlex : lexeme? (cs.drop i) with
      | none =>
          cases hdrop : cs.drop i with
          | nil =>
              obtain rfl : i = cs.length := le_antisymm hi (List.drop_eq_nil_iff.mp hdrop)
              exact .inl ⟨[], by rw [tokensFrom], .nil cs⟩
          | cons c rest =>
              refine .inr ⟨i, c, ?_, unreadable_of_lexeme? hdrop hlex⟩
              rw [tokensFrom, ← hdrop, hlex]
      | some lm =>
          obtain ⟨l, m⟩ := lm
          have hm : FirstLongest languages (cs.drop i) l m := lexeme?_eq_some_iff.mp hlex
          have hpos : 0 < m.length := List.length_pos_iff.mpr hm.ne_nil
          have hle : m.length ≤ cs.length - i := by simpa using hm.isPrefix.length_le
          rw [tokensFrom_drop hm]
          obtain ⟨ts, hts, htokens⟩ | ⟨p, c, herror, hunreadable⟩ :=
            ih (cs.length - (i + m.length)) (by omega) (by omega) rfl
          · exact .inl ⟨l.tokens i m ++ ts, by rw [hts]; rfl, htokens.append hm⟩
          · exact .inr ⟨p, c, by rw [herror]; rfl, hunreadable.append hm⟩

end Tokenizer

end Grammar

open Grammar

/-- A text is cut into tokens that, with blanks and comments between them, make it up, or there is a
first character that cannot be read. -/
theorem tokenize_tokenized_or_unexpectedChar (text : String) :
    (∃ ts, tokenize text = .ok ts ∧ Tokenized text.toList 0 ts) ∨
      ∃ p c, tokenize text = .error (.parse (.unexpectedChar c p)) ∧ text.toList[p]? = some c ∧
        (∀ e ∈ Pattern.languages, NoMatch e.2 (text.toList.drop p)) ∧
        ∃ ts, tokenize (String.ofList (text.toList.take p)) = .ok ts := by
  obtain ⟨ts, hts, htokens⟩ | ⟨p, c, herror, h⟩ := tokensFrom_cases (Nat.zero_le text.toList.length)
  · exact .inl ⟨ts, hts, htokens⟩
  · obtain ⟨ts, hts⟩ := h.readable
    refine .inr ⟨p, c, herror, h.getElem?, h.noMatch, ts, ?_⟩
    rw [tokenize, String.toList_ofList]
    exact hts

end Clausal
