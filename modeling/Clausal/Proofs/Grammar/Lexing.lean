import Clausal.Proofs.Grammar.Soundness

/-!
# Tokens and the text they are cut from

Every token is what its pattern matches somewhere in the text. So punctuation and necks are told by
their text, and a neck among the tokens stands in the text.
-/

namespace Clausal.Grammar

theorem exists_pattern_of_lexeme? {cs m : List Char} {l : Lexeme} (h : lexeme? cs = some (l, m)) :
    ∃ pattern, (l, pattern) ∈ patterns ∧ pattern cs = some m := by
  obtain ⟨⟨l', pattern⟩, hmem, hmatch⟩ := List.exists_of_findSome?_eq_some h
  obtain ⟨m', hm', heq⟩ := Option.map_eq_some_iff.mp hmatch
  obtain ⟨rfl, rfl⟩ := Prod.mk.inj heq
  exact ⟨pattern, hmem, hm'⟩

/-- Each token comes from the pattern of its kind, somewhere in the text. -/
theorem exists_lexeme_of_mem {pos : Nat} {cs : List Char} {ts : List Token}
    (h : tokensFrom pos cs = .ok ts) {t : Token} (ht : t ∈ ts) :
    ∃ after m, after <:+ cs ∧ lexeme? after = some (.token t.kind, m) ∧
      t.text = String.ofList m := by
  fun_induction tokensFrom pos cs generalizing ts with
  | case1 pos =>
      obtain rfl : [] = ts := Except.ok.inj h
      simp at ht
  | case2 => cases h
  | case3 => cases h
  | case4 pos c cs m ts' hmore hlex ih =>
      obtain ⟨after, m', hsuffix, hm'⟩ := ih hmore (Except.ok.inj h ▸ ht)
      exact ⟨after, m', hsuffix.trans ((List.drop_suffix _ _).trans (List.suffix_cons c cs)), hm'⟩
  | case5 pos c cs m ts' hmore kind hlex ih =>
      obtain rfl : _ = ts := Except.ok.inj h
      rcases List.mem_cons.mp ht with rfl | ht
      · exact ⟨c :: cs, m, List.suffix_refl _, hlex, rfl⟩
      · obtain ⟨after, m', hsuffix, hm'⟩ := ih hmore ht
        exact ⟨after, m', hsuffix.trans ((List.drop_suffix _ _).trans (List.suffix_cons c cs)), hm'⟩

theorem mentionsNeck_of_suffix {cs after : List Char} (h : after <:+ cs)
    (hafter : mentionsNeck after = true) : mentionsNeck cs = true := by
  obtain ⟨before, rfl⟩ := h
  induction before with
  | nil => exact hafter
  | cons c before ih =>
      rw [List.cons_append, mentionsNeck.eq_def]
      split
      · rfl
      · simp_all
      · simp_all

/-- A neck among the tokens stands in the text. -/
theorem mentionsNeck_of_mem {text : String} {ts : List Token}
    (h : tokenize text = .ok ts) {t : Token} (ht : t ∈ ts) (hkind : t.kind = .neck) :
    mentionsNeck text.toList = true := by
  obtain ⟨after, m, hsuffix, hlex, _⟩ := exists_lexeme_of_mem h ht
  refine mentionsNeck_of_suffix hsuffix ?_
  obtain ⟨pattern, hmem, hmatch⟩ := exists_pattern_of_lexeme? hlex
  obtain rfl : pattern = neck? := by simpa [patterns, hkind] using hmem
  rw [neck?.eq_def] at hmatch
  split at hmatch
  · rfl
  · cases hmatch

theorem exists_head_of_number? {cs m : List Char} (h : number? cs = some m) :
    ∃ c m', m = c :: m' ∧ Text.isDigit c = true := by
  rw [number?] at h
  split at h
  · cases h
  · next whole hne =>
    cases cs with
    | nil => simp at hne
    | cons c cs =>
        cases hc : Text.isDigit c with
        | false => simp [hc] at hne
        | true =>
            obtain rfl := Option.some.inj h
            rw [List.takeWhile_cons, if_pos hc]
            exact ⟨c, _, rfl, hc⟩

/-- The characters that a token of each kind starts with. -/
def startsKind : TokenKind → Char → Bool
  | .string, c => c == '"'
  | .number, c => Text.isDigit c
  | .name, c => Text.isWordChar c
  | .neck, c => c == ':'
  | .op, c => ['=', '<', '>', '+', '-', '*', '/'].contains c
  | .punct, c => ['(', ')', ',', '.'].contains c

theorem exists_head_of_pattern {kind : TokenKind} {pattern : List Char → Option (List Char)}
    {cs m : List Char} (hmem : (.token kind, pattern) ∈ patterns) (h : pattern cs = some m) :
    ∃ c m', m = c :: m' ∧ startsKind kind c = true := by
  cases kind with
  | string =>
      obtain rfl : pattern = string? := by simpa [patterns] using hmem
      rw [string?.eq_def] at h
      split at h
      · split at h
        · exact ⟨'"', _, (Option.some.inj h).symm, rfl⟩
        · cases h
      · cases h
  | number =>
      obtain rfl : pattern = number? := by simpa [patterns] using hmem
      exact exists_head_of_number? h
  | name =>
      obtain rfl : pattern = name? := by simpa [patterns] using hmem
      rw [name?.eq_def] at h
      split at h
      · cases h
      · next c cs =>
        split at h
        · next hc => exact ⟨c, _, (Option.some.inj h).symm, (Bool.and_eq_true_iff.mp hc).1⟩
        · cases h
  | neck =>
      obtain rfl : pattern = neck? := by simpa [patterns] using hmem
      rw [neck?.eq_def] at h
      split at h
      · exact ⟨':', _, (Option.some.inj h).symm, rfl⟩
      · cases h
  | op =>
      obtain rfl : pattern = op? := by simpa [patterns] using hmem
      rw [op?.eq_def] at h
      split at h
      · exact ⟨'<', _, (Option.some.inj h).symm, rfl⟩
      · exact ⟨'>', _, (Option.some.inj h).symm, rfl⟩
      · exact ⟨'=', _, (Option.some.inj h).symm, rfl⟩
      · next c cs _ _ _ =>
        split at h
        · next hc => exact ⟨c, _, (Option.some.inj h).symm, hc⟩
        · cases h
      · cases h
  | punct =>
      obtain rfl : pattern = punct? := by simpa [patterns] using hmem
      rw [punct?.eq_def] at h
      split at h
      · next c cs =>
        split at h
        · next hc => exact ⟨c, _, (Option.some.inj h).symm, hc⟩
        · cases h
      · cases h

theorem eq_punct_of_startsKind {kind : TokenKind} {c : Char} (h : startsKind kind c = true)
    (hc : c ∈ ['(', ')', ',', '.']) : kind = .punct := by
  have htable : (['(', ')', ',', '.'].all fun c =>
      [TokenKind.string, .number, .name, .neck, .op].all
        fun kind => !startsKind kind c) = true := by
    decide
  have hother := List.all_eq_true.mp htable c hc
  cases kind with
  | punct => rfl
  | _ => simp [h] at hother

theorem eq_neck_of_startsKind {kind : TokenKind} (h : startsKind kind ':' = true) :
    kind = .neck := by
  have hother : ([TokenKind.string, .number, .name, .op, .punct].all fun kind =>
      !startsKind kind ':') = true := by
    decide
  cases kind with
  | neck => rfl
  | _ => simp [h] at hother

theorem proper_of_tokenize {text : String} {ts : List Token} (h : tokenize text = .ok ts) :
    Proper ts := by
  intro t ht
  obtain ⟨after, m, _, hlex, htext⟩ := exists_lexeme_of_mem h ht
  obtain ⟨pattern, hmem, hmatch⟩ := exists_pattern_of_lexeme? hlex
  obtain ⟨c, m', rfl, hc⟩ := exists_head_of_pattern hmem hmatch
  have hhead : ∀ c' cs, t.text = String.ofList (c' :: cs) → c = c' := by
    intro c' cs heq
    exact (List.cons.inj (String.ofList_inj.mp (htext.symm.trans heq))).1
  constructor
  · intro hpunct
    refine eq_punct_of_startsKind hc ?_
    simp only [List.mem_cons, List.not_mem_nil, or_false] at hpunct
    rcases hpunct with heq | heq | heq | heq
    · rw [hhead '(' [] heq]; decide
    · rw [hhead ')' [] heq]; decide
    · rw [hhead ',' [] heq]; decide
    · rw [hhead '.' [] heq]; decide
  · intro hneck
    obtain rfl : c = ':' := hhead ':' ['-'] hneck
    exact eq_neck_of_startsKind hc

end Clausal.Grammar
