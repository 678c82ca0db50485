-- Sources of nothing but blanks. Those that are no blanks of YAML make up plain scalars, and no other
-- token comes in such a source; so it is read as a scalar, and never as a sequence or a mapping.
import Builtins.Proofs.Yaml.Scanning
import Builtins.Text.Blank
import Builtins.Yaml.Node

namespace Builtins.Yaml

/-! ## What is left of a source -/

theorem Scanner.skipBlanks_suffix (inFlow : Bool) (cs : List Char) (place : Place)
    (keyAllowed inComment : Bool) :
    (skipBlanks inFlow cs place keyAllowed inComment).1 <:+ cs := by
  fun_induction skipBlanks inFlow cs place keyAllowed inComment
  case case1 | case7 => exact List.suffix_rfl
  case case2 ih => exact (ih.trans (List.suffix_cons _ _)).trans (List.suffix_cons _ _)
  case case3 ih | case4 ih | case5 ih | case6 ih => exact ih.trans (List.suffix_cons _ _)

theorem plainScalar_suffix {inFlow : Bool} {margin : Nat} {cs text : List Char} {place : Place}
    {gap : Gap} {t : ScalarText} (h : plainScalar inFlow margin cs place text gap = some t) :
    t.rest <:+ cs := by
  fun_induction plainScalar inFlow margin cs place text gap
  case case1 | case6 | case8 =>
    cases h
    exact List.suffix_rfl
  case case2 ih => exact ((ih h).trans (List.suffix_cons _ _)).trans (List.suffix_cons _ _)
  case case3 | case7 => cases h
  case case4 ih | case5 ih | case9 ih => exact (ih h).trans (List.suffix_cons _ _)

/-! ## Scanning blanks -/

/-- Whether a token is a scalar without quotes. -/
def Token.IsPlain (t : Token) : Prop := ∃ text, t = .scalar .plain text

namespace Scanner

/-- Whether nothing but plain scalars has been read, no block is open, and nothing but blanks is
left. -/
structure Vacant (s : Scanner) : Prop where
  rest : ∀ c ∈ s.rest, Text.isBlank c = true
  tokens : ∀ t ∈ s.tokens, t.IsPlain
  margins : s.margins = []

variable {s s' : Scanner} {c : Char} {rest : List Char}

/-- A blank is no mark: if a token begins with it, then a plain scalar. -/
theorem token_of_blank (hc : Text.isBlank c = true) (h : s.token c rest = some s') :
    s.scalar .plain (fun s => plainScalar s.inFlow s.margin s.rest s.place [] {}) = some s' := by
  have hne : ∀ d, Text.isBlank d = false → c ≠ d := by
    rintro d hd rfl
    simp [hc] at hd
  have hmarker : isDocumentMarker (c :: rest) = false := by
    unfold isDocumentMarker
    split
    · next h => exact absurd (List.cons.inj h).1 (hne '-' rfl)
    · next h => exact absurd (List.cons.inj h).1 (hne '.' rfl)
    · rfl
  unfold token at h
  simp [hmarker, hne '%' rfl, hne '[' rfl, hne '\x7b' rfl, hne ']' rfl, hne '\x7d' rfl,
    hne ',' rfl, hne '-' rfl, hne '?' rfl, hne ':' rfl, hne '!' rfl, hne '\'' rfl,
    hne '"' rfl] at h
  exact h.2

namespace Vacant

variable (hs : s.Vacant)
include hs

/-- Places and keys have nothing to do with it. -/
theorem of_same (hrest : s'.rest <:+ s.rest) (htokens : s'.tokens = s.tokens)
    (hmargins : s'.margins = s.margins) : s'.Vacant :=
  ⟨fun c hc => hs.rest c (hrest.subset hc), by rw [htokens]; exact hs.tokens,
    hmargins.trans hs.margins⟩

theorem toToken : s.toToken.Vacant := hs.of_same (skipBlanks_suffix _ _ _ _ _) rfl rfl

theorem dropStale (h : s.dropStale = some s') : s'.Vacant := by
  unfold Scanner.dropStale at h
  dsimp only at h
  split at h
  · cases h
  · cases h
    exact hs.of_same List.suffix_rfl rfl rfl

theorem dropCandidate (h : s.dropCandidate = some s') : s'.Vacant := by
  unfold Scanner.dropCandidate at h
  split at h
  · cases h
  · cases h
    exact hs.of_same List.suffix_rfl rfl rfl

theorem noteCandidate (h : s.noteCandidate = some s') : s'.Vacant := by
  unfold Scanner.noteCandidate at h
  split at h
  · obtain ⟨s₁, hdrop, h⟩ := Option.bind_eq_some_iff.mp h
    cases h
    exact (hs.dropCandidate hdrop).of_same List.suffix_rfl rfl rfl
  · cases h
    exact hs

theorem scalar (h : s.scalar .plain
    (fun s => plainScalar s.inFlow s.margin s.rest s.place [] {}) = some s') : s'.Vacant := by
  unfold Scanner.scalar at h
  obtain ⟨s₁, hnote, h⟩ := Option.bind_eq_some_iff.mp h
  obtain ⟨t, hread, h⟩ := Option.bind_eq_some_iff.mp h
  cases h
  have hs₁ := hs.noteCandidate hnote
  refine ⟨?rest, ?tokens, hs₁.margins⟩
  case rest => exact fun c hc => hs₁.rest c ((plainScalar_suffix hread).subset hc)
  case tokens =>
    intro t ht
    rcases Array.mem_push.mp ht with ht | rfl
    · exact hs₁.tokens t ht
    · exact ⟨_, rfl⟩

theorem finish {ts : Array Token} (h : s.finish = some ts) : ∀ t ∈ ts, t.IsPlain := by
  unfold Scanner.finish at h
  rw [closeBlocks_of_margins hs.margins] at h
  obtain ⟨s₁, hdrop, h⟩ := Option.bind_eq_some_iff.mp h
  cases h
  exact (hs.dropCandidate hdrop).tokens

omit hs in
/-- No other token than plain scalars is read. -/
theorem readAll {fuel : Nat} {ts : Array Token} (hs : s.Vacant) (h : readAll fuel s = some ts) :
    ∀ t ∈ ts, t.IsPlain := by
  induction fuel generalizing s with
  | zero => cases h
  | succ fuel ih =>
    unfold Scanner.readAll at h
    obtain ⟨s₁, hstale, h⟩ := Option.bind_eq_some_iff.mp h
    have hs₁ := hs.toToken.dropStale hstale
    rw [closeBlocks_of_margins hs₁.margins] at h
    dsimp only at h
    split at h
    · exact hs₁.finish h
    · next c rest hrest =>
      obtain ⟨s₂, htoken, h⟩ := Option.bind_eq_some_iff.mp h
      have hc : Text.isBlank c = true := hs₁.rest c (by rw [hrest]; exact List.mem_cons_self)
      exact ih (hs₁.scalar (token_of_blank hc htoken)) h

end Vacant

end Scanner

/-! ## Reading blanks -/

theorem isPlain_of_tokens {source : List Char} {ts : List Token}
    (hsource : ∀ c ∈ source, Text.isBlank c = true) (h : tokens source = some ts) :
    ∀ t ∈ ts, t.IsPlain := by
  unfold tokens at h
  obtain ⟨_, -, h⟩ := Option.bind_eq_some_iff.mp h
  obtain ⟨read, hread, h⟩ := Option.bind_eq_some_iff.mp h
  cases h
  have hstart : Scanner.Vacant { rest := source } := ⟨hsource, by simp, rfl⟩
  intro t ht
  exact hstart.readAll hread t (Array.mem_toList_iff.mp ht)

/-- A source of blanks is a plain scalar, if it is anything. -/
theorem Node.eq_plain_of_blank {source : String} {node : Node}
    (hsource : ∀ c ∈ source.toList, Text.isBlank c = true) (h : ofSource? source = some node) :
    ∃ text, node = .scalar none .plain text := by
  unfold ofSource? at h
  obtain ⟨ts, htokens, h⟩ := Option.bind_eq_some_iff.mp h
  have hplain := isPlain_of_tokens hsource htokens
  unfold ofTokens? at h
  obtain ⟨⟨node', rest⟩, hread, h⟩ := Option.bind_eq_some_iff.mp h
  obtain ⟨_, -, h⟩ := Option.bind_eq_some_iff.mp h
  cases h
  cases ts with
  | nil =>
    cases hread
    exact ⟨"", rfl⟩
  | cons t ts =>
    obtain ⟨text, rfl⟩ := hplain t List.mem_cons_self
    simp [readDocument, read, takeTag] at hread
    exact ⟨text, hread.1.symm⟩

end Builtins.Yaml
