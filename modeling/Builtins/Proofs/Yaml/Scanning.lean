-- Scanning where no block is open and no key is awaited. There every token is read by itself and is
-- put behind those before it, and brackets are all that is kept in mind.
import Builtins.Proofs.Yaml.OneLine
import Builtins.Yaml.Tokens

namespace Builtins.Yaml

namespace Scanner

/-- Whether a scanner is outside all blocks, with `depth` brackets open, and no line of the source
makes sense only with a key. -/
structure Calm (depth : Nat) (rest : List Char) (tokens : List Token) (s : Scanner) : Prop where
  rest : s.rest = rest
  tokens : s.tokens.toList = tokens
  depth : s.outer.length = depth
  margins : s.margins = []
  candidates : ∀ c ∈ s.candidate :: s.outer, c.any (·.required) = false

variable {s : Scanner} {depth : Nat} {c : Char} {rest : List Char} {before : List Token}

/-- Blocks whose margin is not above the limit stay open. -/
theorem closeBlocks_of_le {limit : Nat} (hmargins : ∀ m ∈ s.margins, m ≤ limit) :
    s.closeBlocks limit = s := by
  have hnone : s.margins.takeWhile (limit < ·) = [] := by
    cases hs : s.margins with
    | nil => rfl
    | cons m margins =>
      have hm : m ≤ limit := hmargins m (by rw [hs]; exact List.mem_cons_self)
      rw [List.takeWhile_cons_of_neg (by simpa using hm)]
  unfold Scanner.closeBlocks
  split
  · rfl
  · simp [hnone]

/-- Where no block is open, none is closed. -/
theorem closeBlocks_of_margins (hmargins : s.margins = []) (limit : Nat) :
    s.closeBlocks limit = s := closeBlocks_of_le (by simp [hmargins])

namespace Calm

/-- What is read next, and which tokens have been read, has nothing to do with places and keys. -/
theorem of_same {s' : Scanner} (hs : s.Calm depth rest before) (hrest : s'.rest = s.rest)
    (htokens : s'.tokens = s.tokens) (hmargins : s'.margins = s.margins)
    (hdepth : s'.outer.length = s.outer.length)
    (hcandidates : ∀ c ∈ s'.candidate :: s'.outer, c.any (·.required) = false) :
    s'.Calm depth rest before :=
  ⟨hrest.trans hs.rest, by rw [htokens, hs.tokens], hdepth.trans hs.depth,
    hmargins.trans hs.margins, hcandidates⟩

variable (hs : s.Calm depth rest before)
include hs

theorem dropCandidate : s.dropCandidate = some { s with candidate := none } := by
  unfold Scanner.dropCandidate
  simp [hs.candidates _ List.mem_cons_self]

theorem dropCandidate_calm : Calm depth rest before { s with candidate := none } := by
  refine hs.of_same rfl rfl rfl rfl ?_
  intro c hc
  rcases List.mem_cons.mp hc with rfl | hc
  · rfl
  · exact hs.candidates c (List.mem_cons_of_mem _ hc)

/-- Stale candidates can be given up. -/
theorem dropStale : ∃ s', s.dropStale = some s' ∧ s'.Calm depth rest before := by
  unfold Scanner.dropStale
  dsimp only
  have hany : ((s.candidate :: s.outer).any fun c =>
      c.any (isStale s.place) && c.any (·.required)) = false := by
    rw [List.any_eq_false]
    intro c hc
    simp [hs.candidates c hc]
  rw [if_neg (by simp [hany])]
  refine ⟨_, rfl, hs.of_same rfl rfl rfl (by simp) ?_⟩
  intro c hc
  have hfresh : ∀ d ∈ s.candidate :: s.outer,
      (if d.any (isStale s.place) then none else d).any (·.required) = false := by
    intro d hd
    split
    · rfl
    · exact hs.candidates d hd
  rcases List.mem_cons.mp hc with rfl | hc
  · exact hfresh _ List.mem_cons_self
  · obtain ⟨d, hd, rfl⟩ := List.mem_map.mp hc
    exact hfresh d (List.mem_cons_of_mem _ hd)

/-- A candidate that is noted outside all blocks is not required. -/
theorem noteCandidate : ∃ s', s.noteCandidate = some s' ∧ s'.Calm depth rest before := by
  unfold Scanner.noteCandidate
  split
  · rw [hs.dropCandidate]
    refine ⟨_, rfl, hs.dropCandidate_calm.of_same rfl rfl rfl rfl ?_⟩
    intro c hc
    rcases List.mem_cons.mp hc with rfl | hc
    · simp [margin, hs.margins]
    · exact hs.candidates c (List.mem_cons_of_mem _ hc)
  · exact ⟨s, rfl, hs⟩

theorem closeBlocks (limit : Nat) : s.closeBlocks limit = s :=
  closeBlocks_of_margins hs.margins limit

theorem inFlow (hdepth : 0 < depth) : s.inFlow = true := by
  have hlength := hs.depth
  unfold Scanner.inFlow
  cases houter : s.outer with
  | nil => simp [houter] at hlength; omega
  | cons _ _ => rfl

end Calm

/-! ## Between tokens -/

/-- A character that a token may begin with. -/
structure Visible (c : Char) : Prop where
  printable : Printable c
  ne_space : c ≠ ' '
  ne_comment : c ≠ '#'

instance (c : Char) : Decidable (Visible c) :=
  decidable_of_iff (Printable c ∧ c ≠ ' ' ∧ c ≠ '#')
    ⟨fun h => ⟨h.1, h.2.1, h.2.2⟩, fun h => ⟨h.1, h.2, h.3⟩⟩

theorem skipBlanks_visible {inFlow : Bool} {place : Place} {keyAllowed : Bool} (hc : Visible c) :
    skipBlanks inFlow (c :: rest) place keyAllowed false = (c :: rest, place, keyAllowed) := by
  have htab : c ≠ '\t' := by
    rintro rfl
    exact absurd hc.printable.1 (by decide)
  rw [skipBlanks.eq_def]
  split
  · next h => cases h
  · next h => cases h; exact absurd rfl hc.printable.ne_return
  · next h =>
    cases h
    simp [hc.printable.isBreak, hc.printable.isByteOrderMark, hc.ne_space, hc.ne_comment, htab]

theorem skipBlanks_space {inFlow : Bool} {place : Place} {keyAllowed : Bool} :
    skipBlanks inFlow (' ' :: rest) place keyAllowed false =
      skipBlanks inFlow rest (place.right ' ') keyAllowed false := by
  rw [skipBlanks.eq_def]
  split
  · next h => cases h
  · next h => cases h
  · next h =>
    cases h
    simp [isBreak]

/-- Blanks in front of a token are passed over. -/
theorem Calm.toToken {pad : List Char} (hpad : pad = [] ∨ pad = [' ']) (hc : Visible c)
    (hs : s.Calm depth (pad ++ c :: rest) before) : s.toToken.Calm depth (c :: rest) before := by
  have hskip : ∃ place, skipBlanks s.inFlow s.rest s.place s.keyAllowed false =
      (c :: rest, place, s.keyAllowed) := by
    rw [hs.rest]
    rcases hpad with rfl | rfl
    · exact ⟨_, skipBlanks_visible hc⟩
    · exact ⟨_, skipBlanks_space.trans (skipBlanks_visible hc)⟩
  obtain ⟨place, hplace⟩ := hskip
  unfold Scanner.toToken
  rw [hplace]
  exact ⟨rfl, hs.tokens, hs.depth, hs.margins, hs.candidates⟩

/-! ## Tokens -/

/-- A token is read where it begins, unless a block has to be closed there. -/
theorem readAll_token {s₁ s' : Scanner} (fuel : Nat) (hstale : s.toToken.dropStale = some s₁)
    (hrest : s₁.rest = c :: rest) (hmargins : ∀ m ∈ s₁.margins, m ≤ s₁.place.column + 1)
    (htoken : s₁.token c rest = some s') : readAll (fuel + 1) s = readAll fuel s' := by
  rw [readAll, hstale]
  simp only [Option.bind_eq_bind, Option.bind_some, closeBlocks_of_le hmargins, hrest, htoken]

/-- Whether tokens are read off a source, one after the other, in whatever calm state that is done,
and how many brackets are open then and what is left of the source. -/
def Scans (depth : Nat) (source : List Char) (ts : List Token) (depth' : Nat) (rest : List Char) :
    Prop :=
  ∀ (s : Scanner) (before : List Token), s.Calm depth source before →
    ∃ s' : Scanner, s'.Calm depth' rest (before ++ ts) ∧
      ∀ fuel, readAll (fuel + ts.length) s = readAll fuel s'

theorem scans_nil (depth : Nat) (source : List Char) : Scans depth source [] depth source :=
  fun s before hs => ⟨s, by simpa using hs, fun _ => rfl⟩

theorem Scans.append {d₁ d₂ d₃ : Nat} {source middle rest : List Char} {ts us : List Token}
    (hts : Scans d₁ source ts d₂ middle) (hus : Scans d₂ middle us d₃ rest) :
    Scans d₁ source (ts ++ us) d₃ rest := by
  intro s before hs
  obtain ⟨s₁, hcalm, hread⟩ := hts s before hs
  obtain ⟨s₂, hcalm₂, hread₂⟩ := hus s₁ _ hcalm
  refine ⟨s₂, by simpa using hcalm₂, fun fuel => ?_⟩
  rw [List.length_append, Nat.add_comm ts.length, ← Nat.add_assoc, hread, hread₂]

/-- A token that is read where it begins is read after blanks as well. -/
theorem scans_token {depth' : Nat} {pad rest' : List Char} {t : Token}
    (hpad : pad = [] ∨ pad = [' ']) (hc : Visible c)
    (htoken : ∀ (s : Scanner) before, s.Calm depth (c :: rest) before →
      ∃ s' : Scanner, s.token c rest = some s' ∧ s'.Calm depth' rest' (before ++ [t])) :
    Scans depth (pad ++ c :: rest) [t] depth' rest' := by
  intro s before hs
  obtain ⟨s₁, hstale, hcalm⟩ := (hs.toToken hpad hc).dropStale
  obtain ⟨s', htoken, hcalm'⟩ := htoken s₁ before hcalm
  exact ⟨s', hcalm', fun fuel =>
    readAll_token fuel hstale hcalm.rest (by simp [hcalm.margins]) htoken⟩

namespace Calm

variable (hs : s.Calm depth (c :: rest) before)
include hs

theorem openBracket (t : Token) :
    ∃ s', s.openBracket t = some s' ∧ s'.Calm (depth + 1) rest (before ++ [t]) := by
  obtain ⟨s₁, hnote, hcalm⟩ := hs.noteCandidate
  unfold Scanner.openBracket
  rw [hnote]
  refine ⟨_, rfl, ?rest, ?tokens, ?depth, hcalm.margins, ?candidates⟩
  case rest => simp [skip, emit, hcalm.rest]
  case tokens => simp [skip, emit, hcalm.tokens]
  case depth => simp [skip, emit, hcalm.depth]
  case candidates =>
    intro c hc
    rcases List.mem_cons.mp hc with rfl | hc
    · rfl
    · exact hcalm.candidates c hc

theorem comma : ∃ s', s.comma = some s' ∧ s'.Calm depth rest (before ++ [.flowEntry]) := by
  have hcalm := hs.dropCandidate_calm
  unfold Scanner.comma
  rw [hs.dropCandidate]
  refine ⟨_, rfl, ?rest, ?tokens, hcalm.depth, hcalm.margins, hcalm.candidates⟩
  case rest => simp [skip, emit, hs.rest]
  case tokens => simp [skip, emit, hs.tokens]

omit hs in
theorem closeBracket (hs : s.Calm (depth + 1) (c :: rest) before) (t : Token) :
    ∃ s', s.closeBracket t = some s' ∧ s'.Calm depth rest (before ++ [t]) := by
  unfold Scanner.closeBracket
  rw [hs.dropCandidate]
  obtain ⟨o, outer, houter⟩ : ∃ o outer, s.outer = o :: outer := by
    cases h : s.outer with
    | nil => simpa [h] using hs.depth
    | cons o outer => exact ⟨o, outer, rfl⟩
  refine ⟨_, rfl, ?rest, ?tokens, ?depth, hs.margins, ?candidates⟩
  case rest => simp [skip, emit, hs.rest]
  case tokens => simp [skip, emit, hs.tokens]
  case depth => simpa [skip, emit, houter] using hs.depth
  case candidates =>
    intro d hd
    refine hs.candidates d (List.mem_cons_of_mem _ ?_)
    rw [houter]
    simpa [skip, emit, houter] using hd

/-- A scalar is read as it is read alone. -/
theorem scalar {style : Style} {read : Scanner → Option ScalarText} {text rest' : List Char}
    (hread : ∀ s : Scanner, s.Calm depth (c :: rest) before →
      ∃ place, read s = some ⟨text, false, rest', place⟩) :
    ∃ s', s.scalar style read = some s' ∧
      s'.Calm depth rest' (before ++ [.scalar style (String.ofList text)]) := by
  obtain ⟨s₁, hnote, hcalm⟩ := hs.noteCandidate
  obtain ⟨place, hplace⟩ := hread s₁ hcalm
  unfold Scanner.scalar
  rw [hnote]
  simp only [Option.bind_eq_bind, Option.bind_some, hplace]
  refine ⟨_, rfl, rfl, ?tokens, hcalm.depth, hcalm.margins, hcalm.candidates⟩
  case tokens => simp [emit, hcalm.tokens]

end Calm

/-! ## What the tokens of one line are read as -/

section OneLine

variable {pad : List Char} (hpad : pad = [] ∨ pad = [' '])

include hpad in
theorem scans_openBracket (depth : Nat) (rest : List Char) :
    Scans depth (pad ++ '[' :: rest) [.flowSequenceStart] (depth + 1) rest := by
  refine scans_token hpad (by decide) fun s before hs => ?_
  have htoken : s.token '[' rest = s.openBracket .flowSequenceStart := by
    simp [token, isDocumentMarker]
  rw [htoken]
  exact hs.openBracket _

theorem scans_closeBracket (depth : Nat) (rest : List Char) :
    Scans (depth + 1) (']' :: rest) [.flowSequenceEnd] depth rest := by
  refine scans_token (Or.inl rfl) (by decide) fun s before hs => ?_
  have htoken : s.token ']' rest = s.closeBracket .flowSequenceEnd := by
    simp [token, isDocumentMarker]
  rw [htoken]
  exact Calm.closeBracket hs _

theorem scans_comma (depth : Nat) (rest : List Char) :
    Scans depth (',' :: rest) [.flowEntry] depth rest := by
  refine scans_token (Or.inl rfl) (by decide) fun s before hs => ?_
  have htoken : s.token ',' rest = s.comma := by
    simp [token, isDocumentMarker]
  rw [htoken]
  exact hs.comma

/-- A single quote begins a scalar in single quotes. -/
theorem token_singleQuote (s : Scanner) (rest : List Char) :
    s.token '\'' rest =
      s.scalar .quoted fun s => singleQuoted rest (s.place.right '\'') [] {} := by
  simp [token, isDocumentMarker]

include hpad in
theorem scans_singleQuoted (depth : Nat) {text rest : List Char} (htext : ∀ c ∈ text, Printable c)
    (hrest : rest.head? ≠ some '\'') :
    Scans depth (pad ++ '\'' :: (quotesDoubled text ++ '\'' :: rest))
      [.scalar .quoted (String.ofList text)] depth rest := by
  refine scans_token hpad (by decide) fun s before hs => ?_
  rw [token_singleQuote]
  refine hs.scalar fun s _ => ?_
  have hcolumn : (s.place.right '\'').column ≠ 0 := Nat.succ_ne_zero s.place.column
  exact ⟨_, singleQuoted_line [] [] htext hrest hcolumn⟩

include hpad in
theorem scans_doubleQuoted (depth : Nat) {text rest : List Char}
    (htext : ∀ c ∈ text, Printable c ∧ c ≠ '"' ∧ c ≠ '\\') :
    Scans depth (pad ++ '"' :: (text ++ '"' :: rest)) [.scalar .quoted (String.ofList text)]
      depth rest := by
  refine scans_token hpad (by decide) fun s before hs => ?_
  have htoken : s.token '"' (text ++ '"' :: rest) = s.scalar .quoted fun s =>
      doubleQuoted (text ++ '"' :: rest) (s.place.right '"') [] {} .closed := by
    simp [token, isDocumentMarker]
  rw [htoken]
  refine hs.scalar fun s _ => ?_
  simpa using doubleQuoted_line [] [] htext (Nat.succ_ne_zero s.place.column)

/-- A word that begins with a letter or a digit, or with a minus before a digit. -/
structure IsWord (c : Char) (cs : List Char) : Prop where
  chars : ∀ d ∈ c :: cs, isWordChar d = true
  minus : c = '-' → ∃ d ds, cs = d :: ds ∧ d.isDigit = true

namespace IsWord

variable {c : Char} {cs rest : List Char} (hword : IsWord c cs)
include hword

theorem head : isWordChar c = true := hword.chars c List.mem_cons_self

theorem isDocumentMarker : isDocumentMarker (c :: (cs ++ rest)) = false := by
  unfold Yaml.isDocumentMarker
  split
  · next h =>
    obtain ⟨hc, hcs⟩ := List.cons.inj h
    obtain ⟨d, ds, rfl, hd⟩ := hword.minus hc
    obtain rfl : d = '-' := (List.cons.inj hcs).1
    exact absurd hd (by decide)
  · next h =>
    obtain ⟨rfl, -⟩ := List.cons.inj h
    exact absurd hword.head (by decide)
  · rfl

/-- After a minus the word goes on. -/
theorem goes_on (hc : c = '-') :
    endsWord (cs ++ rest) = false ∧ (cs ++ rest).head?.any isBlank = false := by
  obtain ⟨d, ds, rfl, -⟩ := hword.minus hc
  have hd : isWordChar d = true := hword.chars d (by simp)
  have hprintable := printable_of_isWordChar hd
  have hspace : d ≠ ' ' := ne_of_isWordChar hd rfl
  simp [endsWord, hprintable.isBlank, hprintable.isBreak, hspace]

theorem beginsPlain (inFlow : Bool) : beginsPlain inFlow c (cs ++ rest) = true := by
  unfold Scanner.beginsPlain
  by_cases hc : c = '-'
  · rw [(hword.goes_on hc).2]
    simp [hc]
  · have hspace : c ≠ ' ' := ne_of_isWordChar hword.head rfl
    have hindicator : isIndicator c = false := by
      have hno : ∀ d, isIndicator d = true → d ≠ '-' → isWordChar d = false := by
        intro d hd hminus
        simp only [isIndicator, isFlowIndicator, Bool.or_eq_true, decide_eq_true_eq, List.mem_cons,
          List.not_mem_nil, or_false] at hd
        rcases hd with (rfl | rfl | rfl | rfl | rfl) |
          (rfl | rfl | rfl | rfl | rfl | rfl | rfl | rfl | rfl | rfl | rfl | rfl | rfl | rfl)
        all_goals first | exact absurd rfl hminus | rfl
      rw [← Bool.not_eq_true]
      intro hd
      exact ne_of_isWordChar hword.head (hno c hd hc) rfl
    simp [(printable_of_isWordChar hword.head).isBlank, hspace, hindicator]

/-- A word is read as a plain scalar. -/
theorem token_eq (s : Scanner) :
    s.token c (cs ++ rest) =
      s.scalar .plain fun s => plainScalar s.inFlow s.margin s.rest s.place [] {} := by
  have hne : ∀ d, isWordChar d = false → c ≠ d := fun d hd => ne_of_isWordChar hword.head hd
  have hends : (c == '-' && endsWord (cs ++ rest)) = false := by
    by_cases hc : c = '-'
    · simp [(hword.goes_on hc).1]
    · simp [hc]
  unfold token
  rw [hword.isDocumentMarker, hends, hword.beginsPlain]
  simp [hne '%' rfl, hne '[' rfl, hne '\x7b' rfl, hne ']' rfl, hne '\x7d' rfl, hne ',' rfl,
    hne '?' rfl, hne ':' rfl, hne '!' rfl, hne '\'' rfl, hne '"' rfl]

end IsWord

include hpad in
theorem scans_word (depth : Nat) {c : Char} {cs rest : List Char} (hword : IsWord c cs)
    (hrest : ∀ d ∈ rest.head?, 0 < depth ∧ (d = ',' ∨ d = ']')) :
    Scans depth (pad ++ c :: (cs ++ rest)) [.scalar .plain (String.ofList (c :: cs))] depth
      rest := by
  have hc := hword.head
  have hvisible : Visible c :=
    ⟨printable_of_isWordChar hc, ne_of_isWordChar hc rfl, ne_of_isWordChar hc rfl⟩
  refine scans_token hpad hvisible fun s before hs => ?_
  rw [hword.token_eq]
  refine hs.scalar fun s hs => ?_
  rw [hs.rest]
  have hend : ∀ d ∈ rest.head?, s.inFlow = true ∧ (d = ',' ∨ d = ']') :=
    fun d hd => ⟨hs.inFlow (hrest d hd).1, (hrest d hd).2⟩
  exact plainScalar_word [] hword.chars hend

end OneLine

/-- At the end of the source, what has been read are the tokens. -/
theorem Calm.finish {tokens : List Token} (hs : s.Calm depth [] tokens) (fuel : Nat) :
    readAll (fuel + 1) s = some tokens.toArray := by
  have htoToken : s.toToken.Calm depth [] tokens := by
    unfold Scanner.toToken
    rw [hs.rest]
    exact ⟨rfl, hs.tokens, hs.depth, hs.margins, hs.candidates⟩
  obtain ⟨s₁, hstale, hcalm⟩ := htoToken.dropStale
  rw [readAll, hstale]
  simp only [Option.bind_eq_bind, Option.bind_some, hcalm.closeBlocks, hcalm.rest]
  unfold Scanner.finish
  rw [hcalm.closeBlocks, hcalm.dropCandidate]
  exact congrArg some (by rw [← hcalm.tokens])

end Scanner

/-- What is read of a source that has only allowed characters are its tokens. -/
theorem tokens_of_readAll {source : List Char} {ts : List Token}
    (hallowed : ∀ c ∈ source, isAllowed c = true)
    (hread : Scanner.readAll (source.length + 1) { rest := source } = some ts.toArray) :
    tokens source = some ts := by
  have hguard : (guard (source.all isAllowed) : Option Unit) = some () :=
    if_pos (List.all_eq_true.mpr hallowed)
  unfold tokens
  rw [hread, hguard]
  rfl

/-- Tokens that are read off a whole source are its tokens. -/
theorem tokens_of_scans {source : List Char} {ts : List Token}
    (hallowed : ∀ c ∈ source, isAllowed c = true) (hlength : ts.length ≤ source.length)
    (hscans : Scanner.Scans 0 source ts 0 []) : tokens source = some ts := by
  have hstart : Scanner.Calm 0 source [] { rest := source } :=
    ⟨rfl, rfl, rfl, rfl, by simp⟩
  obtain ⟨s, hs, hread⟩ := hscans _ _ hstart
  obtain ⟨n, hn⟩ := Nat.exists_eq_add_of_le hlength
  apply tokens_of_readAll hallowed
  rw [show source.length + 1 = n + 1 + ts.length by omega, hread]
  exact hs.finish n

end Builtins.Yaml
