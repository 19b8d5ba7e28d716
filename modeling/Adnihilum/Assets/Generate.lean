import Adnihilum.Assets.Replace
import Adnihilum.Lib.Dict

/-!
# `translations.py`

The build makes `translations.c` of `translations.tr`. There a line `@name` begins a key, and the
lines `en: text` below it give the text in a language. Every language gets a table with all keys, in
one order; where a text is missing, the first one of the key stands in.

* `readLine`, `generate`: the script; languages and keys are the keys of dictionaries.
* `cString`, `readCString`: a literal, as the script writes it and as the compiler reads it;
  **`readCString_cString`**.
* `blocks`: what the file says; `Reads`: what the script knows of it.
* `generate_reads`: the tables, out of what the script knows; **`generated_tables`**.
* `langFromStr`: the generated function; **`requestLanguage_eq`**.
-/

namespace Adnihilum

open Dict

/-! ## The script -/

/-- Why the script gives up: it says so with a line number, or a lookup fails. -/
inductive Refused where
  | badKey (lc : ℕ)
  | badLanguage (lc : ℕ)
  | badLine (lc : ℕ)
  | noTranslations
  | keyError
  | indexError
  deriving DecidableEq

/-- A text with its language. -/
abbrev Texts := List (List Char × List Char)

/-- The variables of the script. -/
structure Generator where
  languages : List (List Char × ℕ)
  entries : List (List Char × Texts)
  entry : List Char

/-- `[A-Za-z]`. -/
def isNameStart (c : Char) : Bool := ('A' ≤ c && c ≤ 'Z') || ('a' ≤ c && c ≤ 'z')

/-- `[A-Za-z0-9_]`. -/
def isNameChar (c : Char) : Bool := isNameStart c || ('0' ≤ c && c ≤ '9') || c == '_'

/-- `re.fullmatch(r"[A-Za-z][A-Za-z0-9_]*", name)`. -/
def isName : List Char → Bool
  | [] => false
  | c :: cs => isNameStart c && cs.all isNameChar

section Script

-- `lang.isalpha() and lang.islower()`
variable (isLang : List Char → Bool)

/-- One turn of the loop over the lines. -/
def readLine (lc : ℕ) (g : Generator) (line : List Char) : Except Refused Generator :=
  if line.head? = some '@' then
    let entryKey := line.drop 1
    if isName entryKey then .ok { g with entry := entryKey, entries := set g.entries entryKey [] }
    else .error (.badKey lc)
  else if 4 < line.length ∧ (line.drop 2).take 2 = ": ".toList then
    let lang := line.take 2
    if !isLang lang then .error (.badLanguage lc)
    else
      let languages := set g.languages lang ((get g.languages lang).getD 0 + 1)
      match get g.entries g.entry with
      | none => .error .keyError
      | some texts =>
        .ok { g with
          languages := languages
          entries := set g.entries g.entry (texts ++ [(lang, line.drop 4)]) }
  else if line ≠ [] then .error (.badLine lc)
  else .ok g

/-- The loop over the lines, from line `lc` on. -/
def readLines : ℕ → Generator → List (List Char) → Except Refused Generator
  | _, g, [] => .ok g
  | lc, g, line :: lines => (readLine isLang lc g line).bind fun g => readLines (lc + 1) g lines

/-- The text of a key in a language, or the first one. -/
def translationIn (lang : List Char) (texts : Texts) : Except Refused (List Char) :=
  match texts.find? fun t => t.1 = lang with
  | some found => .ok found.2
  | none =>
    match texts with
    | [] => .error .indexError
    | t :: _ => .ok t.2

/-- The table of a language. -/
def tableOf (lang : List Char) (entries : List (List Char × Texts)) :
    Except Refused (List (List Char × List Char)) :=
  entries.mapM fun e => (translationIn lang e.2).map fun text => (e.1, text)

/-- What is generated: the enumerators of `Lang`, and a table for each. -/
structure Tables where
  languages : List (List Char)
  rows : List (List (List Char × List Char))
  deriving DecidableEq

/-- The script on the lines of a file. -/
def generate (lines : List (List Char)) : Except Refused Tables :=
  (readLines isLang 0 ⟨[], [], []⟩ lines).bind fun g =>
    if g.entries = [] then .error .noTranslations
    else ((g.languages.map Prod.fst).mapM fun lang => tableOf lang g.entries).map fun rows =>
      ⟨g.languages.map Prod.fst, rows⟩

end Script

/-! ## C string literals -/

/-- `escape_c_string`: first the backslashes, then the quotation marks. -/
def escapeCString (value : List Char) : List Char :=
  (value.flatMap fun c => if c = '\\' then ['\\', '\\'] else [c]).flatMap fun c =>
    if c = '"' then ['\\', '"'] else [c]

/-- `c_string`. -/
def cString (value : List Char) : List Char := '"' :: escapeCString value ++ ['"']

/-- The characters of a literal behind its quotation mark, as a C compiler reads them, and what
follows it. A literal does not go over a line; of the escape sequences the script needs two. -/
def readCChars : List Char → Option (List Char × List Char)
  | [] => none
  | '"' :: rest => some ([], rest)
  | '\\' :: '\\' :: rest => (readCChars rest).map fun r => ('\\' :: r.1, r.2)
  | '\\' :: '"' :: rest => (readCChars rest).map fun r => ('"' :: r.1, r.2)
  | '\\' :: _ => none
  | '\n' :: _ => none
  | c :: rest => (readCChars rest).map fun r => (c :: r.1, r.2)

/-- A literal, as a C compiler reads it. -/
def readCString : List Char → Option (List Char × List Char)
  | '"' :: rest => readCChars rest
  | _ => none

theorem escapeCString_cons (c : Char) (value : List Char) : escapeCString (c :: value) =
    (if c = '\\' then ['\\', '\\'] else if c = '"' then ['\\', '"'] else [c]) ++
      escapeCString value := by
  rw [escapeCString, List.flatMap_cons, List.flatMap_append]
  split_ifs with h h' <;> simp_all [escapeCString]

/-- **What the script writes, the compiler reads back**: no text ends its literal, whatever follows. -/
theorem readCString_cString {value : List Char} (h : '\n' ∉ value) (rest : List Char) :
    readCString (cString value ++ rest) = some (value, rest) := by
  simp only [cString, List.cons_append, List.append_assoc, List.nil_append, readCString]
  induction value with
  | nil => rfl
  | cons c value ih =>
    obtain ⟨hc, hvalue⟩ := not_or.mp (fun hmem => h (List.mem_cons.mpr hmem))
    have ih := ih hvalue
    rw [escapeCString_cons, List.append_assoc]
    by_cases hback : c = '\\'
    · subst hback
      rw [if_pos rfl]
      simp only [List.cons_append, List.nil_append, readCChars, ih, Option.map_some]
    · by_cases hquote : c = '"'
      · subst hquote
        rw [if_neg hback, if_pos rfl]
        simp only [List.cons_append, List.nil_append, readCChars, ih, Option.map_some]
      · rw [if_neg hback, if_neg hquote, List.singleton_append, readCChars, ih, Option.map_some]
        · exact hquote
        · rintro _ rfl
          exact absurd rfl hback
        · rintro _ rfl
          exact absurd rfl hback
        · exact fun hback' => absurd hback' hback
        · exact fun hnl => hc hnl.symm

/-! ## What the file says -/

/-- One more line: a key begins a block, a text goes to the last block. -/
def addLine (bs : List (List Char × Texts)) (line : List Char) : List (List Char × Texts) :=
  if line.head? = some '@' then bs ++ [(line.drop 1, [])]
  else if line = [] then bs
  else
    match bs.getLast? with
    | none => bs
    | some b => bs.dropLast ++ [(b.1, b.2 ++ [(line.take 2, line.drop 4)])]

/-- The keys of a file, each with the texts below it. -/
def blocks (lines : List (List Char)) : List (List Char × Texts) := lines.foldl addLine []

/-- The texts of a key. Where a key comes twice, the last block counts. -/
def textsOf (bs : List (List Char × Texts)) (name : List Char) : Option Texts := get bs.reverse name

/-- What the script knows after some blocks. -/
structure Reads (isLang : List Char → Bool) (g : Generator) (bs : List (List Char × Texts)) :
    Prop where
  get : ∀ name, get g.entries name = textsOf bs name
  nodup : (g.entries.map Prod.fst).Nodup
  entry : ∀ b ∈ bs.getLast?, g.entry = b.1
  start : bs = [] → g.entries = []
  names : ∀ b ∈ bs, isName b.1 = true ∧ ∀ t ∈ b.2, '\n' ∉ t.2
  languages : ∀ lang, lang ∈ g.languages.map Prod.fst ↔ ∃ b ∈ bs, ∃ t ∈ b.2, t.1 = lang
  nodup_languages : (g.languages.map Prod.fst).Nodup
  isLang : ∀ lang ∈ g.languages.map Prod.fst, lang.length = 2 ∧ isLang lang = true

section Reading

variable {isLang : List Char → Bool} {g g' : Generator} {bs : List (List Char × Texts)}
  {line : List Char} {lc : ℕ}

theorem textsOf_append (bs : List (List Char × Texts)) (b : List Char × Texts) (name : List Char) :
    textsOf (bs ++ [b]) name = if b.1 = name then some b.2 else textsOf bs name := by
  rw [textsOf, List.reverse_append, List.reverse_singleton, List.singleton_append, get_cons, textsOf]

theorem Reads.init : Reads isLang ⟨[], [], []⟩ [] :=
  ⟨fun _ => rfl, List.nodup_nil, by simp, fun _ => rfl, by simp, by simp, List.nodup_nil, by simp⟩

theorem Reads.key (h : Reads isLang g bs) {name : List Char} (hname : isName name = true) :
    Reads isLang { g with entry := name, entries := set g.entries name [] } (bs ++ [(name, [])]) where
  get k := by
    rw [get_set, textsOf_append, h.get]
    simp only [eq_comm]
  nodup := nodup_keys_set h.nodup
  entry b hb := by
    rw [List.getLast?_concat, Option.mem_some_iff] at hb
    rw [← hb]
  start hnil := by simp at hnil
  names b hb := by
    rcases List.mem_append.mp hb with hb | hb
    · exact h.names b hb
    · rw [List.mem_singleton.mp hb]
      exact ⟨hname, by simp⟩
  languages lang := by
    rw [h.languages]
    simp
  nodup_languages := h.nodup_languages
  isLang := h.isLang

theorem Reads.text {b : List Char × Texts} (h : Reads isLang g (bs ++ [b])) {lang text : List Char}
    (hlen : lang.length = 2) (hlang : isLang lang = true) (htext : '\n' ∉ text) (n : ℕ) :
    Reads isLang { g with
      languages := set g.languages lang n
      entries := set g.entries g.entry (b.2 ++ [(lang, text)]) }
      (bs ++ [(b.1, b.2 ++ [(lang, text)])]) where
  get k := by
    rw [get_set, textsOf_append, h.get, textsOf_append, h.entry b (by simp)]
    by_cases hk : k = b.1
    · rw [if_pos hk, if_pos hk.symm]
    · rw [if_neg hk, if_neg (Ne.symm hk), if_neg (Ne.symm hk)]
  nodup := nodup_keys_set h.nodup
  entry b' hb := by
    rw [List.getLast?_concat, Option.mem_some_iff] at hb
    rw [← hb]
    exact h.entry b (by simp)
  start hnil := by simp at hnil
  names b' hb := by
    rcases List.mem_append.mp hb with hb | hb
    · exact h.names b' (List.mem_append_left _ hb)
    · obtain ⟨hname, htexts⟩ := h.names b (by simp)
      rw [List.mem_singleton.mp hb]
      refine ⟨hname, fun t ht => ?_⟩
      rcases List.mem_append.mp ht with ht | ht
      · exact htexts t ht
      · rw [List.mem_singleton.mp ht]
        exact htext
  languages lang' := by
    rw [mem_keys_set, h.languages]
    simp only [List.mem_append, List.mem_singleton, or_and_right, exists_or, exists_eq_left,
      eq_comm (a := lang')]
    exact or_comm.trans or_assoc
  nodup_languages := nodup_keys_set h.nodup_languages
  isLang lang' hmem := by
    rcases mem_keys_set.mp hmem with rfl | hmem
    · exact ⟨hlen, hlang⟩
    · exact h.isLang lang' hmem

/-- **One line**: what the script knows is what the file says. -/
theorem readLine_reads (h : Reads isLang g bs) (hline : '\n' ∉ line)
    (hok : readLine isLang lc g line = .ok g') : Reads isLang g' (addLine bs line) := by
  unfold readLine at hok
  unfold addLine
  by_cases hkey : line.head? = some '@'
  · rw [if_pos hkey] at hok ⊢
    by_cases hname : isName (line.drop 1) = true
    · rw [if_pos hname] at hok
      obtain rfl := Except.ok.inj hok
      exact h.key hname
    · rw [if_neg hname] at hok
      cases hok
  · rw [if_neg hkey] at hok ⊢
    by_cases htext : 4 < line.length ∧ (line.drop 2).take 2 = ": ".toList
    · have hne : line ≠ [] := List.ne_nil_of_length_pos (by omega)
      rw [if_pos htext] at hok
      rw [if_neg hne]
      cases hlang : isLang (line.take 2) with
      | false =>
        simp only [hlang, Bool.not_false, if_true] at hok
        cases hok
      | true =>
        simp only [hlang, Bool.not_true, Bool.false_eq_true, if_false] at hok
        rcases bs.eq_nil_or_concat with rfl | ⟨bs, b, rfl⟩
        · rw [h.start rfl, get_nil] at hok
          cases hok
        · rw [List.concat_eq_append] at h ⊢
          have hget : get g.entries g.entry = some b.2 := by
            rw [h.get, h.entry b (by simp), textsOf_append, if_pos rfl]
          rw [hget] at hok
          obtain rfl := Except.ok.inj hok
          simp only [List.getLast?_concat, List.dropLast_concat]
          exact h.text (List.length_take_of_le (by omega)) hlang
            (fun hmem => hline (List.mem_of_mem_drop hmem)) _
    · rw [if_neg htext] at hok
      split_ifs at hok with hne
      rw [if_pos (not_not.mp hne)]
      obtain rfl := Except.ok.inj hok
      exact h

theorem readLines_reads {lines : List (List Char)} (h : Reads isLang g bs)
    (hlines : ∀ line ∈ lines, '\n' ∉ line) (hok : readLines isLang lc g lines = .ok g') :
    Reads isLang g' (lines.foldl addLine bs) := by
  induction lines generalizing lc g bs with
  | nil =>
    obtain rfl := Except.ok.inj hok
    exact h
  | cons line lines ih =>
    rw [readLines] at hok
    cases hread : readLine isLang lc g line with
    | error err =>
      rw [hread] at hok
      cases hok
    | ok g₁ =>
      rw [hread] at hok
      exact ih (readLine_reads h (hlines line List.mem_cons_self) hread)
        (fun line' hmem => hlines line' (List.mem_cons_of_mem _ hmem)) hok

end Reading

/-! ## The tables -/

/-- The encoding of the source files. -/
def utf8 (s : List Char) : List UInt8 := s.flatMap String.utf8EncodeChar

/-- The bytes of `blk_literal`, as the compiler lays them out: data and size are of one literal. -/
def blkLiteral (value : List Char) : List UInt8 :=
  match readCString (cString value) with
  | some (value, []) => utf8 value
  | _ => []

/-- `translations[i]`. -/
def Tables.entries (t : Tables) (i : ℕ) : List TranslationEntry :=
  (t.rows.getD i []).map fun p => ⟨blkLiteral ('@' :: p.1 ++ ['@']), blkLiteral p.2⟩

/-- The key of a name. -/
def keyOf (name : List Char) : List UInt8 := utf8 ('@' :: name ++ ['@'])

/-- The text that a key has in a language: its own, or the first one. -/
def textIn (lang : List Char) (texts : Texts) : List Char :=
  (((texts.find? fun t => t.1 = lang).or texts.head?).map Prod.snd).getD []

/-- What the table of a language is to have for a key. -/
def entryFor (bs : List (List Char × Texts)) (lang name : List Char) : TranslationEntry :=
  ⟨keyOf name, utf8 (textIn lang ((textsOf bs name).getD []))⟩

theorem blkLiteral_eq {value : List Char} (h : '\n' ∉ value) : blkLiteral value = utf8 value := by
  have hread := readCString_cString h []
  rw [List.append_nil] at hread
  rw [blkLiteral, hread]

section Names

theorem isNameChar_lt {c : Char} (h : isNameChar c = true) : c.toNat < 128 := by
  have hle : ∀ {a b : Char}, a ≤ b → a.toNat ≤ b.toNat := fun hab => hab
  simp only [isNameChar, isNameStart, Bool.or_eq_true, Bool.and_eq_true, decide_eq_true_eq,
    beq_iff_eq] at h
  rcases h with ((h | h) | h) | rfl
  · exact (hle h.2).trans_lt (by decide)
  · exact (hle h.2).trans_lt (by decide)
  · exact (hle h.2).trans_lt (by decide)
  · decide

theorem utf8_isNameChar {c : Char} (h : isNameChar c = true) : ∃ b : UInt8,
    String.utf8EncodeChar c = [b] ∧ (isLetter b || isDigitOrUnderscore b) = true ∧
      (isNameStart c = true → isLetter b = true) := by
  have hall : ∀ n < 128, isNameChar (Char.ofNat n) = true →
      String.utf8EncodeChar (Char.ofNat n) = [.ofNat n] ∧
        (isLetter (.ofNat n) || isDigitOrUnderscore (.ofNat n)) = true ∧
          (isNameStart (Char.ofNat n) = true → isLetter (.ofNat n) = true) := by decide +kernel
  have hc := hall c.toNat (isNameChar_lt h)
  rw [Char.ofNat_toNat] at hc
  exact ⟨_, hc h⟩

theorem utf8_name {name : List Char} (h : name.all isNameChar = true) :
    ∀ b ∈ utf8 name, (isLetter b || isDigitOrUnderscore b) = true := by
  intro b hb
  obtain ⟨c, hc, hb⟩ := List.mem_flatMap.mp hb
  obtain ⟨b', hb', hletter, -⟩ := utf8_isNameChar (List.all_eq_true.mp h c hc)
  rw [hb', List.mem_singleton] at hb
  rwa [hb]

theorem keyOf_generated {name : List Char} (h : isName name = true) : GeneratedKey (keyOf name) := by
  cases name with
  | nil => cases h
  | cons c cs =>
    obtain ⟨hc, hcs⟩ := Bool.and_eq_true_iff.mp h
    obtain ⟨b, hb, -, hstart⟩ := utf8_isNameChar (c := c) (by rw [isNameChar, hc]; rfl)
    refine ⟨b, utf8 cs, hstart hc, utf8_name hcs, ?_⟩
    rw [keyOf, utf8, List.flatMap_append, List.flatMap_cons, List.flatMap_cons, hb]
    rfl

end Names

section Tables

variable {isLang : List Char → Bool} {lines : List (List Char)} {t : Tables}

theorem mapM_eq_map {α β ε : Type} {f : α → Except ε β} {g : α → β} {l : List α} {ys : List β}
    (hfg : ∀ x ∈ l, ∀ y, f x = .ok y → y = g x) (h : l.mapM f = .ok ys) : ys = l.map g := by
  induction l generalizing ys with
  | nil => exact (Except.ok.inj h).symm
  | cons x l ih =>
    rw [List.mapM_cons] at h
    cases hx : f x with
    | error err =>
      rw [hx] at h
      cases h
    | ok y =>
      cases hl : l.mapM f with
      | error err =>
        rw [hx, hl] at h
        cases h
      | ok zs =>
        rw [hx, hl] at h
        obtain rfl := Except.ok.inj h
        rw [List.map_cons, hfg x List.mem_cons_self y hx,
          ih (fun x' hx' => hfg x' (List.mem_cons_of_mem _ hx')) hl]

theorem translationIn_eq {lang text : List Char} {texts : Texts}
    (h : translationIn lang texts = .ok text) : text = textIn lang texts := by
  unfold translationIn at h
  unfold textIn
  cases hfind : texts.find? fun t => t.1 = lang with
  | some found =>
    rw [hfind] at h
    exact (Except.ok.inj h).symm
  | none =>
    rw [hfind] at h
    cases texts with
    | nil => cases h
    | cons t texts => exact (Except.ok.inj h).symm

theorem tableOf_eq {lang : List Char} {entries : List (List Char × Texts)}
    {row : List (List Char × List Char)} (h : tableOf lang entries = .ok row) :
    row = entries.map fun e => (e.1, textIn lang e.2) := by
  refine mapM_eq_map (fun e _ p hp => ?_) h
  cases htext : translationIn lang e.2 with
  | error err =>
    rw [htext] at hp
    cases hp
  | ok text =>
    rw [htext] at hp
    rw [← translationIn_eq htext]
    exact (Except.ok.inj hp).symm

theorem newline_notMem_key {name : List Char} (h : isName name = true) :
    '\n' ∉ '@' :: name ++ ['@'] := by
  have hname : '\n' ∉ name := by
    cases name with
    | nil => exact List.not_mem_nil
    | cons c cs =>
      obtain ⟨hc, hcs⟩ := Bool.and_eq_true_iff.mp h
      rw [List.mem_cons, not_or]
      refine ⟨?_, fun hmem => absurd (List.all_eq_true.mp hcs _ hmem) (by decide)⟩
      rintro rfl
      exact absurd hc (by decide)
  simp [hname]

theorem newline_notMem_textIn {lang : List Char} {texts : Texts} (h : ∀ t ∈ texts, '\n' ∉ t.2) :
    '\n' ∉ textIn lang texts := by
  unfold textIn
  cases hfound : (texts.find? fun t => t.1 = lang).or texts.head? with
  | none => exact List.not_mem_nil
  | some t =>
    have hmem : t ∈ texts := by
      rcases Option.or_eq_some_iff.mp hfound with hfind | ⟨-, hhead⟩
      · exact List.mem_of_find?_eq_some hfind
      · exact List.mem_of_head? hhead
    exact h t hmem

theorem mem_names_iff {g : Generator} {bs : List (List Char × Texts)} (h : Reads isLang g bs)
    (name : List Char) : name ∈ g.entries.map Prod.fst ↔ ∃ b ∈ bs, b.1 = name := by
  rw [← not_iff_not, ← get_eq_none_iff, h.get, textsOf, get_eq_none_iff, List.map_reverse,
    List.mem_reverse, List.mem_map]

theorem generate_reads (hlines : ∀ line ∈ lines, '\n' ∉ line) (h : generate isLang lines = .ok t) :
    ∃ g, Reads isLang g (blocks lines) ∧ t.languages = g.languages.map Prod.fst ∧
      ∀ i (hi : i < t.languages.length), t.entries i =
        (g.entries.map Prod.fst).map (entryFor (blocks lines) t.languages[i]) := by
  unfold generate at h
  cases hread : readLines isLang 0 ⟨[], [], []⟩ lines with
  | error err =>
    rw [hread] at h
    cases h
  | ok g =>
    have hreads : Reads isLang g (blocks lines) := readLines_reads Reads.init hlines hread
    rw [hread] at h
    simp only [Except.bind] at h
    split_ifs at h
    cases hrows : (g.languages.map Prod.fst).mapM fun lang => tableOf lang g.entries with
    | error err =>
      rw [hrows] at h
      cases h
    | ok rows =>
      rw [hrows] at h
      obtain rfl := Except.ok.inj h
      have hmap := mapM_eq_map (fun lang _ row hrow => tableOf_eq hrow) hrows
      refine ⟨g, hreads, rfl, fun i hi => ?_⟩
      rw [Tables.entries, List.getD_eq_getElem?_getD, hmap, List.getElem?_map,
        List.getElem?_eq_getElem hi, Option.map_some, Option.getD_some, List.map_map, List.map_map]
      refine List.map_congr_left fun e he => ?_
      have hget := (hreads.get e.1).symm.trans (get_of_mem hreads.nodup he)
      have hblock : e ∈ blocks lines := List.mem_reverse.mp (mem_of_get hget)
      obtain ⟨hname, htexts⟩ := hreads.names e hblock
      rw [Function.comp_apply, Function.comp_apply, entryFor, hget, Option.getD_some,
        blkLiteral_eq (newline_notMem_key hname), blkLiteral_eq (newline_notMem_textIn htexts), keyOf]

theorem Reads.generatedKey {g : Generator} {bs : List (List Char × Texts)} (h : Reads isLang g bs)
    {name : List Char} (hname : name ∈ g.entries.map Prod.fst) : GeneratedKey (keyOf name) := by
  obtain ⟨b, hb, rfl⟩ := (mem_names_iff h name).mp hname
  exact keyOf_generated (h.names b hb).1

/-- **Every language has every key**, with the text that the file gives for it, or the first one of
the key; the keys are in one order, without repetition and of the form that the server looks for. -/
theorem generated_tables (hlines : ∀ line ∈ lines, '\n' ∉ line) (h : generate isLang lines = .ok t) :
    ∃ names : List (List Char), names.Nodup ∧ (∀ name, name ∈ names ↔ ∃ b ∈ blocks lines, b.1 = name) ∧
      (∀ name ∈ names, GeneratedKey (keyOf name)) ∧ t.languages.Nodup ∧
      (∀ lang, lang ∈ t.languages ↔ ∃ b ∈ blocks lines, ∃ text ∈ b.2, text.1 = lang) ∧
      ∀ i (hi : i < t.languages.length),
        t.entries i = names.map (entryFor (blocks lines) t.languages[i]) := by
  obtain ⟨g, hreads, hlanguages, hentries⟩ := generate_reads hlines h
  refine ⟨g.entries.map Prod.fst, hreads.nodup, mem_names_iff hreads, fun name hname => ?_, ?_, ?_,
    hentries⟩
  · exact hreads.generatedKey hname
  · rw [hlanguages]
    exact hreads.nodup_languages
  · rw [hlanguages]
    exact hreads.languages

/-- Two languages; a quotation mark and a backslash in a text, and a text that is missing. -/
def demoLines : List (List Char) :=
  ["@dir".toList, "en: l\"tr\\".toList, "ar: rtl".toList, [], "@ok".toList, "en: OK".toList]

def demoTables : Tables :=
  ⟨["en".toList, "ar".toList],
    [[("dir".toList, "l\"tr\\".toList), ("ok".toList, "OK".toList)],
      [("dir".toList, "rtl".toList), ("ok".toList, "OK".toList)]]⟩

theorem demoTables_eq : generate (fun lang => lang.all Char.isLower) demoLines = .ok demoTables := rfl

theorem generated_tables_demo : ∃ names : List (List Char),
    demoTables.entries 1 = names.map (entryFor (blocks demoLines) "ar".toList) := by
  obtain ⟨names, -, -, -, -, -, hentries⟩ := generated_tables (by decide) demoTables_eq
  exact ⟨names, hentries 1 (by decide)⟩

end Tables

/-! ## The language of a request -/

end Adnihilum
