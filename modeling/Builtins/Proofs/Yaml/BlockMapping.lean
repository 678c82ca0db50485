-- Mappings with an entry a line, each name and each text between single quotes. A name at the start
-- of a line turns out to be a key at the colon behind it, and the first one opens the block.
import Builtins.Proofs.Yaml.Scanning
import Builtins.Yaml.Reader

namespace Builtins.Yaml

/-! ## Entries on lines of their own -/

/-- An entry as a line. -/
def entryLine (e : String × String) : List Char :=
  (singleQuote e.1).toList ++ ':' :: ' ' :: ((singleQuote e.2).toList ++ ['\n'])

/-- Entries as lines. -/
def entryLines (entries : List (String × String)) : String :=
  String.ofList (entries.flatMap entryLine)

def entryTokens (e : String × String) : List Token :=
  [.key, .scalar .quoted e.1, .value, .scalar .quoted e.2]

def entryNode (e : String × String) : Node × Node :=
  (.scalar none .quoted e.1, .scalar none .quoted e.2)

/-- Whether an entry can be written on a line: its name must be near enough to the colon. -/
structure FitsLine (e : String × String) : Prop where
  name : ∀ c ∈ e.1.toList, Printable c
  text : ∀ c ∈ e.2.toList, Printable c
  reach : (singleQuote e.1).toList.length ≤ keyReach

/-! ## Scanning a line -/

/-- A token that is put at a position stands before those that were there. -/
theorem toList_insertIdxIfInBounds {ts : Array Token} {before after : List Token}
    (hts : ts.toList = before ++ after) (t : Token) :
    (ts.insertIdxIfInBounds before.length t).toList = before ++ t :: after := by
  obtain ⟨ts⟩ := ts
  obtain rfl : ts = before ++ after := hts
  rw [List.insertIdxIfInBounds_toArray]
  change (before ++ after).insertIdx before.length t = before ++ t :: after
  induction before with
  | nil => rfl
  | cons u before ih => simp [ih]

namespace Scanner

variable {s s' : Scanner} {c : Char} {rest : List Char} {margins : List Nat} {before : List Token}

theorem toToken_visible (hrest : s.rest = c :: rest) (hc : Visible c) : s.toToken = s := by
  unfold toToken
  rw [hrest, skipBlanks_visible hc, ← hrest]

theorem dropStale_of_fresh (houter : s.outer = [])
    (hfresh : s.candidate.any (isStale s.place) = false) : s.dropStale = some s := by
  obtain ⟨_, _, _, candidate, _, _, _⟩ := s
  obtain rfl := houter
  simp only at hfresh
  simp [dropStale, hfresh]

/-- Whether a scanner is outside brackets and awaits no colon, with these blocks open. -/
structure Idle (margins : List Nat) (rest : List Char) (tokens : List Token) (s : Scanner) :
    Prop where
  rest : s.rest = rest
  tokens : s.tokens.toList = tokens
  margins : s.margins = margins
  outer : s.outer = []
  candidate : s.candidate = none

/-- Whether a name has been read that began its line, and whose colon would be in reach. -/
structure Awaits (margins : List Nat) (rest : List Char) (before : List Token) (name : String)
    (s : Scanner) : Prop where
  rest : s.rest = rest
  tokens : s.tokens.toList = before ++ [.scalar .quoted name]
  margins : s.margins = margins
  outer : s.outer = []
  candidate : ∃ required place, s.candidate = some ⟨required, before.length, place⟩ ∧
    place.column = 0 ∧ isStale s.place ⟨required, before.length, place⟩ = false

namespace Idle

/-- A name in quotes at the start of a line may be a key. -/
theorem name {name : String}
    (hs : s.Idle margins ('\'' :: (quotesDoubled name.toList ++ '\'' :: ':' :: rest)) before)
    (hcolumn : s.place.column = 0) (hallowed : s.keyAllowed = true)
    (hname : ∀ c ∈ name.toList, Printable c)
    (hreach : (singleQuote name).toList.length ≤ keyReach) :
    ∃ s', s.token '\'' (quotesDoubled name.toList ++ '\'' :: ':' :: rest) = some s' ∧
      s'.Awaits margins (':' :: rest) before name := by
  have hnote : s.noteCandidate = some { s with
      candidate := some ⟨!s.inFlow && s.margin == s.place.column + 1, s.tokens.size, s.place⟩ } := by
    unfold noteCandidate
    rw [if_pos hallowed]
    simp [dropCandidate, hs.candidate, inFlow, margin]
  have hcolon : (':' :: rest).head? ≠ some '\'' := by simp
  have hright : (s.place.right '\'').column ≠ 0 := Nat.succ_ne_zero s.place.column
  have hread := singleQuoted_line [] [] hname hcolon hright
  have hsize : s.tokens.size = before.length := by
    rw [← Array.length_toList, hs.tokens]
  have hplace : (s.place.right '\'').rightOver (quotesDoubled name.toList ++ ['\'']) =
      s.place.rightOver (singleQuote name).toList := by
    rw [toList_singleQuote]
    rfl
  rw [token_singleQuote]
  unfold Scanner.scalar
  rw [hnote]
  simp only [Option.bind_eq_bind, Option.bind_some, hread, hplace, hsize]
  refine ⟨_, rfl, rfl, ?tokens, hs.margins, hs.outer, _, _, rfl, hcolumn, ?fresh⟩
  case tokens => simp [emit, hs.tokens]
  case fresh =>
    simp [isStale, emit, Place.line_rightOver,
      Place.index_rightOver s.place (printable_singleQuote hname)]
    exact hreach

/-- Where no key may begin, a text in quotes is a scalar and nothing else. -/
theorem text {text : String}
    (hs : s.Idle margins ('\'' :: (quotesDoubled text.toList ++ '\'' :: rest)) before)
    (hallowed : s.keyAllowed = false) (htext : ∀ c ∈ text.toList, Printable c)
    (hrest : rest.head? ≠ some '\'') :
    ∃ s', s.token '\'' (quotesDoubled text.toList ++ '\'' :: rest) = some s' ∧
      s'.Idle margins rest (before ++ [.scalar .quoted text]) := by
  have hnote : s.noteCandidate = some s := by
    unfold noteCandidate
    rw [if_neg (by simp [hallowed])]
  have hright : (s.place.right '\'').column ≠ 0 := Nat.succ_ne_zero s.place.column
  have hread := singleQuoted_line [] [] htext hrest hright
  rw [token_singleQuote]
  unfold Scanner.scalar
  rw [hnote]
  simp only [Option.bind_eq_bind, Option.bind_some, hread]
  refine ⟨_, rfl, rfl, ?tokens, hs.margins, hs.outer, hs.candidate⟩
  case tokens => simp [emit, hs.tokens]

end Idle

/-- The token that opens the block of a mapping, unless it is open. -/
def opening (margins : List Nat) : List Token :=
  if margins = [] then [.blockMappingStart] else []

theorem Idle.openBlock {after : List Token} (hs : s.Idle margins rest (before ++ after))
    (hmargins : margins = [] ∨ margins = [1]) :
    (s.openBlock 0 before.length .blockMappingStart).Idle [1] rest
      (before ++ opening margins ++ after) := by
  have hflow : s.inFlow = false := by
    simp [inFlow, hs.outer]
  unfold Scanner.openBlock
  rcases hmargins with rfl | rfl
  · rw [if_pos (by simp [hflow, margin, hs.margins])]
    refine ⟨hs.rest, ?_, by simp [hs.margins], hs.outer, hs.candidate⟩
    simpa [opening] using toList_insertIdxIfInBounds hs.tokens .blockMappingStart
  · rw [if_neg (by simp [margin, hs.margins])]
    simpa [opening] using hs

theorem keyAllowed_openBlock (s : Scanner) (column position : Nat) (t : Token) :
    (s.openBlock column position t).keyAllowed = s.keyAllowed := by
  unfold openBlock
  split <;> rfl

/-- The colon makes a key of the name, and the first key opens the block. -/
theorem Awaits.colon {name : String} (hs : s.Awaits margins (':' :: rest) before name)
    (hends : endsWord rest = true) (hmargins : margins = [] ∨ margins = [1]) :
    ∃ s', s.token ':' rest = some s' ∧ s'.keyAllowed = false ∧
      s'.Idle [1] rest (before ++ opening margins ++ [.key, .scalar .quoted name, .value]) := by
  have htoken : s.token ':' rest = s.colon := by
    simp [token, isDocumentMarker, hends]
  obtain ⟨required, place, hcandidate, hcolumn, -⟩ := hs.candidate
  have hkey : Idle margins (':' :: rest) (before ++ [.key, .scalar .quoted name]) { s with
      tokens := s.tokens.insertIdxIfInBounds before.length .key
      candidate := none, keyAllowed := false } :=
    ⟨hs.rest, toList_insertIdxIfInBounds hs.tokens .key, hs.margins, hs.outer, rfl⟩
  have hopen := hkey.openBlock hmargins
  rw [htoken]
  unfold Scanner.colon
  simp only [hcandidate, hcolumn]
  refine ⟨_, rfl, keyAllowed_openBlock _ _ _ _, ?rest, ?tokens, hopen.margins, hopen.outer,
    hopen.candidate⟩
  case rest => simp [skip, emit, hopen.rest]
  case tokens => simp [skip, emit, hopen.tokens]

/-! ## Scanning lines -/

/-- Whether a scanner is where a line begins, once it has passed over the end of the line before. -/
structure AtLine (margins : List Nat) (rest : List Char) (tokens : List Token) (s : Scanner) :
    Prop where
  idle : s.toToken.Idle margins rest tokens
  column : s.toToken.place.column = 0
  keyAllowed : s.toToken.keyAllowed = true

/-- Lines end the source or go on with the quote that begins the next one. -/
theorem Idle.atLine (hs : s.Idle margins ('\n' :: rest) before)
    (hrest : rest = [] ∨ rest.head? = some '\'') : s.AtLine margins rest before := by
  have hflow : s.inFlow = false := by
    simp [inFlow, hs.outer]
  have hskip : skipBlanks s.inFlow s.rest s.place s.keyAllowed false =
      (rest, s.place.down '\n', true) := by
    have hfeed : skipBlanks false ('\n' :: rest) s.place s.keyAllowed false =
        skipBlanks false rest (s.place.down '\n') true false := by
      simp [skipBlanks, isBreak]
    rw [hflow, hs.rest, hfeed]
    rcases hrest with rfl | hrest
    · rfl
    · obtain ⟨cs, rfl⟩ : ∃ cs, rest = '\'' :: cs := ⟨rest.tail, (List.cons_head?_tail hrest).symm⟩
      exact skipBlanks_visible (by decide)
  have htoToken : s.toToken =
      { s with rest, place := s.place.down '\n', keyAllowed := true } := by
    unfold toToken
    rw [hskip]
  constructor
  case idle =>
    rw [htoToken]
    exact ⟨rfl, hs.tokens, hs.margins, hs.outer, hs.candidate⟩
  case column => rw [htoToken]; rfl
  case keyAllowed => rw [htoToken]

/-- A space in front of a token is passed over. -/
theorem Idle.afterSpace (hs : s.Idle margins (' ' :: c :: rest) before) (hc : Visible c) :
    s.toToken.Idle margins (c :: rest) before ∧ s.toToken.keyAllowed = s.keyAllowed := by
  have htoToken : s.toToken = { s with rest := c :: rest, place := s.place.right ' ' } := by
    unfold toToken
    rw [hs.rest, skipBlanks_space, skipBlanks_visible hc]
  rw [htoToken]
  exact ⟨⟨rfl, hs.tokens, hs.margins, hs.outer, hs.candidate⟩, rfl⟩

theorem Idle.dropStale (hs : s.Idle margins rest before) : s.dropStale = some s :=
  dropStale_of_fresh hs.outer (by simp [hs.candidate])

theorem Awaits.dropStale {name : String} (hs : s.Awaits margins rest before name) :
    s.dropStale = some s := by
  obtain ⟨required, place, hcandidate, -, hfresh⟩ := hs.candidate
  exact dropStale_of_fresh hs.outer (by simpa [hcandidate] using hfresh)

theorem le_of_mem_margins (hmargins : margins = [] ∨ margins = [1]) (column : Nat) :
    ∀ m ∈ margins, m ≤ column + 1 := by
  rcases hmargins with rfl | rfl <;> simp

/-- A line is read as its entry, and then the next line begins. -/
theorem AtLine.line {e : String × String} (hs : s.AtLine margins (entryLine e ++ rest) before)
    (he : FitsLine e) (hmargins : margins = [] ∨ margins = [1])
    (hrest : rest = [] ∨ rest.head? = some '\'') :
    ∃ s', s'.AtLine [1] rest (before ++ opening margins ++ entryTokens e) ∧
      ∀ fuel, readAll (fuel + 3) s = readAll fuel s' := by
  have hline : entryLine e ++ rest = '\'' :: (quotesDoubled e.1.toList ++ '\'' :: ':' :: ' ' ::
      '\'' :: (quotesDoubled e.2.toList ++ '\'' :: '\n' :: rest)) := by
    simp [entryLine, toList_singleQuote]
  rw [hline] at hs
  have hidle := hs.idle
  obtain ⟨s₁, hname, hs₁⟩ := hidle.name hs.column hs.keyAllowed he.name he.reach
  have hto₁ : s₁.toToken = s₁ := toToken_visible hs₁.rest (by decide)
  obtain ⟨s₂, hcolon, hallowed, hs₂⟩ := hs₁.colon rfl hmargins
  obtain ⟨hidle₂, hsame⟩ := hs₂.afterSpace (by decide)
  obtain ⟨s₃, htext, hs₃⟩ := hidle₂.text (hsame.trans hallowed) he.text (by simp)
  refine ⟨s₃, ?_, fun fuel => ?_⟩
  · have hline₃ := hs₃.atLine hrest
    simpa [entryTokens] using hline₃
  · -- The token of the key is put in at the colon: a line of four tokens takes three turns.
    calc readAll (fuel + 3) s
        = readAll (fuel + 2) s₁ := readAll_token _ hidle.dropStale hidle.rest
          (by rw [hidle.margins]; exact le_of_mem_margins hmargins _) hname
      _ = readAll (fuel + 1) s₂ := readAll_token _ (by rw [hto₁]; exact hs₁.dropStale) hs₁.rest
          (by rw [hs₁.margins]; exact le_of_mem_margins hmargins _) hcolon
      _ = readAll fuel s₃ := readAll_token _ hidle₂.dropStale hidle₂.rest
          (by rw [hidle₂.margins]; simp) htext

theorem head?_entryLine (e : String × String) (rest : List Char) :
    (entryLine e ++ rest).head? = some '\'' := by
  simp [entryLine, toList_singleQuote]

theorem lines_begin (entries : List (String × String)) :
    entries.flatMap entryLine = [] ∨ (entries.flatMap entryLine).head? = some '\'' := by
  cases entries with
  | nil => exact Or.inl rfl
  | cons e entries => exact Or.inr (head?_entryLine e _)

/-- A source begins its first line. -/
theorem atLine_start {source : List Char} (hsource : source.head? = some '\'') :
    AtLine [] source [] { rest := source } := by
  obtain ⟨cs, rfl⟩ : ∃ cs, source = '\'' :: cs := ⟨source.tail, (List.cons_head?_tail hsource).symm⟩
  have hto : toToken { rest := '\'' :: cs } = { rest := '\'' :: cs } :=
    toToken_visible rfl (by decide)
  constructor
  case idle =>
    rw [hto]
    exact ⟨rfl, rfl, rfl, rfl, rfl⟩
  case column => rw [hto]
  case keyAllowed => rw [hto]

/-- Once the block is open, lines are read as their entries up to the end of the source. -/
theorem AtLine.lines {entries : List (String × String)}
    (hs : s.AtLine [1] (entries.flatMap entryLine) before) (hentries : ∀ e ∈ entries, FitsLine e) :
    ∃ s', s'.AtLine [1] [] (before ++ entries.flatMap entryTokens) ∧
      ∀ fuel, readAll (fuel + 3 * entries.length) s = readAll fuel s' := by
  induction entries generalizing s before with
  | nil => exact ⟨s, by simpa using hs, fun _ => rfl⟩
  | cons e entries ih =>
    obtain ⟨s₁, hs₁, hline⟩ := hs.line (hentries e List.mem_cons_self) (Or.inr rfl)
      (lines_begin entries)
    obtain ⟨s', hs', hlines⟩ := ih hs₁ fun e he => hentries e (List.mem_cons_of_mem _ he)
    refine ⟨s', by simpa [opening] using hs', fun fuel => ?_⟩
    rw [List.length_cons, Nat.mul_succ, ← Nat.add_assoc, hline, hlines]

/-- The end of the source closes the block. -/
theorem AtLine.finish (hs : s.AtLine [1] [] before) (fuel : Nat) :
    readAll (fuel + 1) s = some (before ++ [Token.blockEnd]).toArray := by
  have hidle := hs.idle
  have hflow : s.toToken.inFlow = false := by
    simp [inFlow, hidle.outer]
  have htokens : s.toToken.tokens = before.toArray := by
    rw [← hidle.tokens, Array.toArray_toList]
  rw [readAll, hidle.dropStale]
  simp only [Option.bind_eq_bind, Option.bind_some]
  rw [closeBlocks_of_le (by rw [hidle.margins]; simp), hidle.rest]
  simp [Scanner.finish, closeBlocks, hflow, hidle.margins, dropCandidate, hidle.candidate, htokens]

end Scanner

theorem FitsLine.isAllowed {e : String × String} (he : FitsLine e) :
    ∀ c ∈ entryLine e, isAllowed c = true := by
  intro c hc
  simp only [entryLine, List.mem_append, List.mem_cons, List.not_mem_nil, or_false] at hc
  rcases hc with hc | rfl | rfl | hc | rfl
  · exact (printable_singleQuote he.name c hc).isAllowed
  · decide
  · decide
  · exact (printable_singleQuote he.text c hc).isAllowed
  · decide

theorem length_lines_le (entries : List (String × String)) :
    3 * entries.length ≤ (entries.flatMap entryLine).length := by
  induction entries with
  | nil => exact Nat.le_refl 0
  | cons e entries ih =>
    have hline : 3 ≤ (entryLine e).length := by
      simp [entryLine]
      omega
    rw [List.flatMap_cons, List.length_append, List.length_cons]
    omega

/-- The tokens of a source that is written in lines. -/
theorem tokens_entryLines {e : String × String} {entries : List (String × String)}
    (hentries : ∀ d ∈ e :: entries, FitsLine d) :
    tokens (entryLines (e :: entries)).toList =
      some (.blockMappingStart :: ((e :: entries).flatMap entryTokens ++ [.blockEnd])) := by
  have hallowed : ∀ c ∈ (e :: entries).flatMap entryLine, isAllowed c = true := by
    intro c hc
    obtain ⟨d, hd, hc⟩ := List.mem_flatMap.mp hc
    exact (hentries d hd).isAllowed c hc
  -- The first line opens the block, so it stands outside the induction on lines.
  have hstart := Scanner.atLine_start (Scanner.head?_entryLine e (entries.flatMap entryLine))
  obtain ⟨s₁, hs₁, hline⟩ := hstart.line (hentries e List.mem_cons_self) (Or.inl rfl)
    (Scanner.lines_begin entries)
  obtain ⟨s', hs', hlines⟩ := hs₁.lines fun d hd => hentries d (List.mem_cons_of_mem e hd)
  obtain ⟨n, hn⟩ := Nat.exists_eq_add_of_le (length_lines_le (e :: entries))
  rw [entryLines, String.toList_ofList]
  apply tokens_of_readAll hallowed
  rw [hn, List.length_cons,
    show 3 * (entries.length + 1) + n + 1 = n + 1 + 3 * entries.length + 3 by omega]
  calc Scanner.readAll (n + 1 + 3 * entries.length + 3) _
      = Scanner.readAll (n + 1 + 3 * entries.length) s₁ := hline _
    _ = Scanner.readAll (n + 1) s' := hlines _
    _ = _ := by
      rw [hs'.finish]
      simp [Scanner.opening]

/-! ## Reading the tokens of lines -/

namespace Node

theorem read_quoted (fuel : Nat) (inBlock inMapping : Bool) (s : String) (ts : List Token) :
    read (fuel + 1) inBlock inMapping (.scalar .quoted s :: ts) =
      some (.scalar none .quoted s, ts) := by
  simp [read, takeTag]

/-- The tokens of entries are read one entry after the other, up to the end of the block. -/
theorem readBlockMapping_entries {entries : List (String × String)} {fuel : Nat}
    (hfuel : entries.length + 3 < fuel) (rest : List Token) :
    readBlockMapping fuel (entries.flatMap entryTokens ++ .blockEnd :: rest) =
      some (entries.map entryNode, rest) := by
  induction entries generalizing fuel with
  | nil =>
    obtain ⟨fuel, rfl⟩ : ∃ k, fuel = k + 1 := ⟨fuel - 1, by omega⟩
    rfl
  | cons e entries ih =>
    rw [List.length_cons] at hfuel
    obtain ⟨fuel, rfl⟩ : ∃ k, fuel = k + 4 := ⟨fuel - 4, by omega⟩
    have hmore := ih (show entries.length + 3 < fuel + 3 by omega)
    simp [entryTokens, readBlockMapping, readUnless, isNext, read_quoted, readValue, hmore,
      entryNode]

theorem read_blockMapping {entries : List (String × String)} {fuel : Nat}
    (hfuel : entries.length + 3 < fuel) (inMapping : Bool) (rest : List Token) :
    read (fuel + 1) true inMapping
        (.blockMappingStart :: (entries.flatMap entryTokens ++ .blockEnd :: rest)) =
      some (.mapping none (entries.map entryNode), rest) := by
  simp [read, takeTag, readBlockMapping_entries hfuel]

theorem length_entries_le (entries : List (String × String)) :
    entries.length ≤ (entries.flatMap entryTokens).length := by
  induction entries with
  | nil => exact Nat.le_refl 0
  | cons e entries ih =>
    simp [entryTokens]
    omega

/-- The tokens of lines are a mapping of their entries. -/
theorem ofTokens?_entries (entries : List (String × String)) :
    ofTokens? (.blockMappingStart :: (entries.flatMap entryTokens ++ [.blockEnd])) =
      some (.mapping none (entries.map entryNode)) := by
  have hlength := length_entries_le entries
  have hdocument : readDocument (4 * (entries.flatMap entryTokens).length + 11 + 1)
      (.blockMappingStart :: (entries.flatMap entryTokens ++ [.blockEnd])) =
        some (.mapping none (entries.map entryNode), []) :=
    read_blockMapping (by omega) false []
  unfold ofTokens?
  rw [List.length_cons, List.length_append, List.length_singleton,
    show 4 * ((entries.flatMap entryTokens).length + 1 + 1) + 4 =
      4 * (entries.flatMap entryTokens).length + 11 + 1 by omega, hdocument]
  rfl

/-- A source that is written in lines is the mapping of their entries. -/
theorem ofSource?_entryLines {e : String × String} {entries : List (String × String)}
    (hentries : ∀ d ∈ e :: entries, FitsLine d) :
    ofSource? (entryLines (e :: entries)) = some (.mapping none ((e :: entries).map entryNode)) := by
  unfold ofSource?
  rw [tokens_entryLines hentries]
  exact ofTokens?_entries (e :: entries)

theorem entries?_entryNodes (entries : List (String × String)) :
    (mapping none (entries.map entryNode)).entries? = some entries := by
  change (entries.map entryNode).mapM _ = some entries
  induction entries with
  | nil => rfl
  | cons e entries ih =>
    rw [List.map_cons, List.mapM_cons, ih]
    rfl

end Node

/-- Entries that are written a line each are read as they are. -/
theorem entries?_entryLines {entries : List (String × String)} (hne : entries ≠ [])
    (hentries : ∀ e ∈ entries, FitsLine e) : entries? (entryLines entries) = some entries := by
  obtain ⟨e, entries, rfl⟩ := List.exists_cons_of_ne_nil hne
  unfold entries?
  rw [Node.ofSource?_entryLines hentries, Option.bind_some]
  exact Node.entries?_entryNodes (e :: entries)

end Builtins.Yaml
