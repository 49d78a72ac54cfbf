/-
Command lines for a POSIX shell, and how a shell reads and runs them.

The shell here is a fragment: words with quotes and `$?`, redirections of output, `&&` and `;`,
and of the commands that act on the shell itself `cd` and `exec`.  What lies outside of it has no
meaning here: it is read or run as `none`.

* `Shell.lex`, `Shell.parse` — a line as tokens, and as lists of commands;
* `Host`, `Shell.run` — what utilities do on a host, and what a line does there;
* `Shell.quote`, `Shell.join` — words written for a shell, as `shlex` does it;
* `Shell.lex_join`, `Shell.parse_join_iff` — how joined words are read;
* `Shell.run_join`, `Shell.run_cd` — what a line of joined words does.
-/
import Mathlib.Data.List.TakeWhile
import Mathlib.Tactic.Common

namespace Shell

abbrev Bytes := List UInt8

/-! ### Tokens -/

/-- A place in a word: a character, quoted or not, or `$?`. -/
inductive Piece
  | char (c : Char) (quoted : Bool)
  | status
deriving DecidableEq

abbrev Word := List Piece

inductive Token
  | word (w : Word)
  /-- `>`, for the file descriptor written in front of it. -/
  | redirect (fd : ℕ)
  | andIf
  | semi
deriving DecidableEq

/-- Within quotes or not, or behind the first character of `&&` or `$?`. -/
inductive Mode
  | bare
  | single
  | double
  | ampersand
  | dollar

/-- The characters that stand for themselves outside of quotes. -/
def isPlain (c : Char) : Bool := c.isAlphanum || "%+,-./:=@_".toList.contains c

def nul : Char := Char.ofNat 0

/-- One more place at the end of the word that is being read. -/
def push (w : Option Word) (p : Piece) : Option Word := some (w.getD [] ++ [p])

/-- The word that was being read. -/
def ended : Option Word → List Token
  | none => []
  | some w => [.word w]

def digit : Piece → Option ℕ
  | .char c false => if c.isDigit then some (c.toNat - '0'.toNat) else none
  | _ => none

/-- Digits right in front of `>` are a file descriptor. -/
def ioNumber : Option Word → Option ℕ
  | none => none
  | some w => if w = [] then none else (w.mapM digit).map fun ds => ds.foldl (10 * · + ·) 0

def redirection (w : Option Word) : List Token :=
  match ioNumber w with
  | some fd => [.redirect fd]
  | none => ended w ++ [.redirect 1]

/-- The tokens of the rest of a line, where `w` is the word that is being read. -/
def lexFrom : Mode → Option Word → List Char → Option (List Token)
  | .bare, w, [] => some (ended w)
  | _, _, [] => none
  | .single, w, c :: cs =>
    if c = '\'' then lexFrom .bare w cs
    else if c = nul then none
    else lexFrom .single (push w (.char c true)) cs
  | .double, w, c :: cs =>
    if c = '"' then lexFrom .bare w cs
    else if c = nul ∨ c = '$' ∨ c = Char.ofNat 96 ∨ c = '\\' then none
    else lexFrom .double (push w (.char c true)) cs
  | .bare, w, c :: cs =>
    if isPlain c then lexFrom .bare (push w (.char c false)) cs
    else if c = '\'' then lexFrom .single (some (w.getD [])) cs
    else if c = '"' then lexFrom .double (some (w.getD [])) cs
    else if c = ' ' ∨ c = '\t' then (lexFrom .bare none cs).map (ended w ++ ·)
    else if c = ';' then (lexFrom .bare none cs).map (ended w ++ .semi :: ·)
    else if c = '>' then (lexFrom .bare none cs).map (redirection w ++ ·)
    else if c = '&' then lexFrom .ampersand w cs
    else if c = '$' then lexFrom .dollar w cs
    else none
  | .ampersand, w, c :: cs =>
    if c = '&' then (lexFrom .bare none cs).map (ended w ++ .andIf :: ·) else none
  | .dollar, w, c :: cs => if c = '?' then lexFrom .bare (push w .status) cs else none

def lex (line : String) : Option (List Token) := lexFrom .bare none line.toList

/-! ### Commands -/

/-- A simple command: assignments, words and redirections. -/
structure Command where
  assigns : List Word
  words : List Word
  redirects : List (ℕ × Word)
deriving DecidableEq

/-- The words and redirections among some tokens. -/
def collect : List Token → Option (List Word × List (ℕ × Word))
  | [] => some ([], [])
  | .word w :: ts => (collect ts).map fun (ws, rs) => (w :: ws, rs)
  | .redirect fd :: .word w :: ts => (collect ts).map fun (ws, rs) => (ws, (fd, w) :: rs)
  | _ => none

def isNamePiece : Piece → Bool
  | .char c false => c.isAlphanum || c == '_'
  | _ => false

def startsName : Word → Bool
  | .char c false :: _ => c.isAlpha || c == '_'
  | _ => false

/-- An unquoted name and an unquoted `=`. -/
def isAssignment (w : Word) : Bool :=
  startsName w && (w.dropWhile isNamePiece).head? == some (.char '=' false)

/-- The characters of a word without any quotes. -/
def bare (s : String) : Word := s.toList.map (Piece.char · false)

/-- The characters of a word, quoted or not. -/
def Word.letters (w : Word) : String :=
  String.ofList (w.filterMap fun | .char c _ => some c | .status => none)

/-- The command of some tokens; a reserved word in front makes them something else. -/
def simpleCommand (reserved : String → Bool) (ts : List Token) : Option Command := do
  let (ws, redirects) ← collect ts
  if ws = [] ∧ redirects = [] then none
  else
    match ws.head? with
    | some first =>
      if first = bare (Word.letters first) ∧ reserved (Word.letters first) then none
      else some ⟨ws.takeWhile isAssignment, ws.dropWhile isAssignment, redirects⟩
    | none => some ⟨[], [], redirects⟩

/-- Commands joined by `&&`, in lists joined by `;`. -/
def parse (reserved : String → Bool) (line : String) : Option (List (List Command)) := do
  let ts ← lex line
  (ts.splitOn .semi).mapM fun list => (list.splitOn .andIf).mapM (simpleCommand reserved)

/-! ### Hosts -/

/-- Files, by path. -/
abbrev Files := String → Option Bytes

/-- How a utility ends. -/
structure Ended where
  status : ℕ
  stdout : Bytes
  stderr : Bytes
deriving DecidableEq

/-- A host, with a shell of some kind. -/
structure Host where
  /-- Words that do not name a command, where a command is expected, -/
  reserved : String → Bool
  reserved_cd : reserved "cd" = false
  reserved_exec : reserved "exec" = false
  /-- and commands that act on the shell itself, besides `cd` and `exec`. -/
  special : String → Bool
  /-- What a utility does, started with its arguments in a directory. -/
  spawn : List String → String → Files → Ended × Files
  /-- What `>` can write to, -/
  writable : String → Files → Bool
  /-- and where `cd` can go. -/
  isDir : String → Files → Bool
  /-- What a shell that cannot do so leaves as status, and has to say. -/
  failure : ℕ
  failure_ne : failure ≠ 0
  complaint : Bytes

/-- A path from a directory. -/
def resolve (dir path : String) : String :=
  if "/".toList.isPrefixOf path.toList then path else dir ++ "/" ++ path

/-- The text of a word, where `$?` is `status`. -/
def Word.text (status : ℕ) (w : Word) : String :=
  String.ofList (w.flatMap fun | .char c _ => [c] | .status => (toString status).toList)

structure State where
  files : Files
  dir : String
  status : ℕ
  stdout : Bytes
  stderr : Bytes
  /-- `exec` has put a utility in the place of the shell. -/
  gone : Bool

/-- The shell when it starts. -/
def State.start (dir : String) (files : Files) : State := ⟨files, dir, 0, [], [], false⟩

@[simp] theorem dir_start (dir : String) (files : Files) : (State.start dir files).dir = dir := rfl

@[simp] theorem files_start (dir : String) (files : Files) :
    (State.start dir files).files = files := rfl

/-- Empty the files that are redirected to, from left to right, up to one that cannot be opened. -/
def openAll (host : Host) : List String → Files → Bool × Files
  | [], files => (true, files)
  | path :: paths, files =>
    if host.writable path files then openAll host paths (Function.update files path (some []))
    else (false, files)

/-- What is written to a file descriptor. -/
def Ended.stream (e : Ended) : ℕ → Bytes
  | 1 => e.stdout
  | 2 => e.stderr
  | _ => []

/-- Write to the files that are redirected to. -/
def writeAll (e : Ended) : List (ℕ × String) → Files → Files
  | [], files => files
  | (fd, path) :: rest, files => writeAll e rest (Function.update files path (some (e.stream fd)))

/-- A stream that is not redirected is the shell's own. -/
def own (e : Ended) (redirects : List (ℕ × String)) (fd : ℕ) : Bytes :=
  if fd ∈ redirects.map Prod.fst then [] else e.stream fd

def State.fail (host : Host) (s : State) : State :=
  { s with status := host.failure, stderr := s.stderr ++ host.complaint }

/-- The state after a utility. -/
def State.after (s : State) (e : Ended) (files : Files) : State :=
  { s with files := files, status := e.status, stdout := s.stdout ++ e.stdout,
           stderr := s.stderr ++ e.stderr }

/-- A utility with its output redirected to files that no other redirection names, and that it
leaves to the shell. -/
def utility (host : Host) (argv : List String) (redirects : List (ℕ × String)) (s : State) :
    Option State :=
  let paths := redirects.map Prod.snd
  if ¬ paths.Nodup then none
  else
    match openAll host paths s.files with
    | (false, files) => some ({ s with files := files }.fail host)
    | (true, opened) =>
      let (e, files) := host.spawn argv s.dir opened
      if ∀ path ∈ paths, files path = some [] then
        some (s.after ⟨e.status, own e redirects 1, own e redirects 2⟩ (writeAll e redirects files))
      else none

def startsDash (s : String) : Bool := s.toList.head? == some '-'

/-- Run a command. -/
def Command.run (host : Host) (c : Command) (s : State) : Option State :=
  let redirects := c.redirects.map fun (fd, w) => (fd, resolve s.dir (w.text s.status))
  match c.assigns, c.words.map (·.text s.status) with
  | [], ["cd", "--", dir] =>
    -- `cd -` goes back to where the shell was before.
    if dir = "-" ∨ redirects ≠ [] then none
    else if host.isDir (resolve s.dir dir) s.files then
      some { s with dir := resolve s.dir dir, status := 0 }
    else some (s.fail host)
  | [], "exec" :: name :: args =>
    if startsDash name ∨ redirects ≠ [] then none
    else
      let (e, files) := host.spawn (name :: args) s.dir s.files
      some { s.after e files with gone := true }
  | [], name :: args =>
    if name = "cd" ∨ name = "exec" ∨ host.special name then none
    else utility host (name :: args) redirects s
  | _, _ => none

/-- Commands joined by `&&`. -/
def runAnd (host : Host) : List Command → State → Option State
  | [], s => some s
  | c :: cs, s => do
    let s ← c.run host s
    if s.status = 0 ∧ s.gone = false then runAnd host cs s else some s

/-- Lists joined by `;`. -/
def runAll (host : Host) : List (List Command) → State → Option State
  | [], s => some s
  | list :: lists, s => do
    let s ← runAnd host list s
    if s.gone then some s else runAll host lists s

/-- What a line does that a shell runs in a directory. -/
def run (host : Host) (line dir : String) (files : Files) : Option (Ended × Files) := do
  let lists ← parse host.reserved line
  let s ← runAll host lists (.start dir files)
  some (⟨s.status, s.stdout, s.stderr⟩, s.files)

/-! ### Quoting -/

/-- The characters `shlex.quote` finds nothing wrong with. -/
def isSafe (c : Char) : Bool := c.isAlphanum || "_@%+=:,./-".toList.contains c

def escapeQuote (c : Char) : List Char := if c = '\'' then "'\"'\"'".toList else [c]

/-- `shlex.quote` -/
def quote (s : String) : String :=
  if s = "" then "''"
  else if s.toList.all isSafe then s
  else String.ofList ('\'' :: s.toList.flatMap escapeQuote ++ ['\''])

/-- `shlex.join` -/
def join (argv : List String) : String := " ".intercalate (argv.map quote)

/-- The word a shell reads for what `quote` writes. -/
def quoted (s : String) : Word :=
  if s ≠ "" ∧ s.toList.all isSafe then bare s else s.toList.map (Piece.char · true)

/-! ### How words are read -/

variable {w : Word} {rest : List Char}

theorem isPlain_of_isSafe {c : Char} (h : isSafe c = true) : isPlain c = true := by
  simp only [isSafe, isPlain, Bool.or_eq_true, List.contains_iff_mem] at h ⊢
  refine h.imp_right fun hmem => ?_
  have hall : "_@%+=:,./-".toList.all ("%+,-./:=@_".toList.contains ·) = true := rfl
  exact List.contains_iff_mem.mp (List.all_eq_true.mp hall c hmem)

theorem isPlain_ne {c : Char} (h : isPlain c = true) : c ≠ nul ∧ c ≠ '\'' := by
  constructor <;> (rintro rfl; exact absurd h (by decide))

theorem lexFrom_push (v : Option Word) {c : Char} (h : isPlain c = true) (rest : List Char) :
    lexFrom .bare v (c :: rest) = lexFrom .bare (push v (.char c false)) rest := by
  rw [lexFrom, if_pos h]

/-- Characters that stand for themselves are read into the word. -/
theorem lexFrom_more {s : List Char} (h : ∀ c ∈ s, isPlain c = true) (w : Word)
    (rest : List Char) : lexFrom .bare (some w) (s ++ rest) =
      lexFrom .bare (some (w ++ s.map (Piece.char · false))) rest := by
  induction s generalizing w with
  | nil => rw [List.map_nil, List.append_nil, List.nil_append]
  | cons c s ih =>
    rw [List.cons_append, lexFrom_push _ (h c List.mem_cons_self)]
    show lexFrom .bare (some (w ++ [.char c false])) (s ++ rest) = _
    rw [ih (fun d hd => h d (List.mem_cons_of_mem _ hd)), List.map_cons, List.append_assoc]
    rfl

theorem lexFrom_plain {s : List Char} (hne : s ≠ []) (h : ∀ c ∈ s, isPlain c = true)
    (rest : List Char) :
    lexFrom .bare none (s ++ rest) = lexFrom .bare (some (s.map (Piece.char · false))) rest := by
  obtain ⟨c, s, rfl⟩ := List.exists_cons_of_ne_nil hne
  rw [List.cons_append, lexFrom_push _ (h c List.mem_cons_self)]
  exact lexFrom_more (fun d hd => h d (List.mem_cons_of_mem _ hd)) [.char c false] rest

/-- A character in single quotes, the quote itself by leaving them for double ones. -/
theorem lexFrom_escapeQuote {c : Char} (h : c ≠ nul) (w : Word) (rest : List Char) :
    lexFrom .single (some w) (escapeQuote c ++ rest) =
      lexFrom .single (some (w ++ [.char c true])) rest := by
  unfold escapeQuote
  split_ifs with hquote
  · subst hquote
    rfl
  · rw [List.singleton_append, lexFrom, if_neg hquote, if_neg h]
    rfl

theorem lexFrom_single {s : List Char} (h : nul ∉ s) (w : Word) (rest : List Char) :
    lexFrom .single (some w) (s.flatMap escapeQuote ++ '\'' :: rest) =
      lexFrom .bare (some (w ++ s.map (Piece.char · true))) rest := by
  induction s generalizing w with
  | nil => rw [List.flatMap_nil, List.nil_append, lexFrom, if_pos rfl, List.map_nil, List.append_nil]
  | cons c s ih =>
    obtain ⟨hc, hs⟩ := not_or.mp fun hmem => h (List.mem_cons.mpr hmem)
    rw [List.flatMap_cons, List.append_assoc, lexFrom_escapeQuote (Ne.symm hc), ih hs, List.map_cons,
      List.append_assoc]
    rfl

theorem toList_ne_nil {s : String} (h : s ≠ "") : s.toList ≠ [] := by
  intro hnil
  exact h (String.toList_injective hnil)

/-- **What `quote` writes is read as one word.** -/
theorem lexFrom_quote {s : String} (h : nul ∉ s.toList) (rest : List Char) :
    lexFrom .bare none ((quote s).toList ++ rest) = lexFrom .bare (some (quoted s)) rest := by
  unfold quote quoted
  by_cases hempty : s = ""
  · subst hempty
    rfl
  rw [if_neg hempty]
  by_cases hsafe : s.toList.all isSafe
  · rw [if_pos hsafe, if_pos ⟨hempty, hsafe⟩]
    exact lexFrom_plain (toList_ne_nil hempty)
      (fun c hc => isPlain_of_isSafe (List.all_eq_true.mp hsafe c hc)) rest
  · rw [if_neg hsafe, if_neg fun hboth => hsafe hboth.2]
    rw [String.toList_ofList, List.cons_append, List.cons_append, List.append_assoc, lexFrom,
      if_neg (by decide), if_pos rfl]
    exact lexFrom_single h [] rest

/-- What may follow a word: it ends there. -/
def Ends (rest : List Char) : Prop :=
  ∀ w, lexFrom .bare (some w) rest = (lexFrom .bare none rest).map (Token.word w :: ·)

theorem ends_nil : Ends [] := fun _ => rfl

theorem lexFrom_blank (rest : List Char) :
    lexFrom .bare none (' ' :: rest) = lexFrom .bare none rest := by
  rw [lexFrom, if_neg (by decide), if_neg (by decide), if_neg (by decide), if_pos (.inl rfl)]
  exact congrFun Option.map_id _

theorem ends_blank (rest : List Char) : Ends (' ' :: rest) := by
  intro w
  rw [lexFrom_blank, lexFrom, if_neg (by decide), if_neg (by decide), if_neg (by decide),
    if_pos (.inl rfl)]
  rfl

theorem lexFrom_semi (rest : List Char) :
    lexFrom .bare none (';' :: rest) = (lexFrom .bare none rest).map (Token.semi :: ·) := rfl

theorem ends_semi (rest : List Char) : Ends (';' :: rest) := by
  intro w
  rw [lexFrom_semi, Option.map_map]
  rfl

theorem lexFrom_andIf (rest : List Char) :
    lexFrom .bare none ('&' :: '&' :: rest) = (lexFrom .bare none rest).map (Token.andIf :: ·) := rfl

theorem lexFrom_redirect (rest : List Char) :
    lexFrom .bare none ('>' :: rest) = (lexFrom .bare none rest).map (Token.redirect 1 :: ·) := rfl

theorem lexFrom_redirect_two (rest : List Char) :
    lexFrom .bare none ('2' :: '>' :: rest) = (lexFrom .bare none rest).map (Token.redirect 2 :: ·) :=
  rfl

theorem lexFrom_status (rest : List Char) :
    lexFrom .bare none ('$' :: '?' :: rest) = lexFrom .bare (some [.status]) rest := rfl

/-- The tokens of words. -/
def words (argv : List String) : List Token := argv.map fun s => Token.word (quoted s)

theorem toList_join_cons (a b : String) (argv : List String) :
    (join (a :: b :: argv)).toList = (quote a).toList ++ ' ' :: (join (b :: argv)).toList := by
  simp [join, String.toList_intercalate]

/-- **What `join` writes is read as the words it was given**, whatever follows that ends a word. -/
theorem lexFrom_join {argv : List String} (h : ∀ a ∈ argv, nul ∉ a.toList) (hrest : Ends rest) :
    lexFrom .bare none ((join argv).toList ++ rest) =
      (lexFrom .bare none rest).map (words argv ++ ·) := by
  induction argv with
  | nil =>
    show lexFrom .bare none rest = _
    exact (congrFun Option.map_id _).symm
  | cons a argv ih =>
    have ha := h a List.mem_cons_self
    cases argv with
    | nil =>
      have hone : (join [a]).toList = (quote a).toList := by
        simp [join]
      rw [hone, lexFrom_quote ha, hrest]
      rfl
    | cons b argv =>
      rw [toList_join_cons, List.append_assoc, lexFrom_quote ha, List.cons_append, ends_blank,
        lexFrom_blank, ih fun c hc => h c (List.mem_cons_of_mem _ hc), Option.map_map]
      rfl

theorem lex_join {argv : List String} (h : ∀ a ∈ argv, nul ∉ a.toList) :
    lex (join argv) = some (words argv) := by
  have hread := lexFrom_join h ends_nil
  rw [List.append_nil] at hread
  rw [lex, hread, lexFrom]
  exact congrArg some (List.append_nil _)

/-- Quoting adds no NUL. -/
theorem nul_notMem_quote {s : String} (h : nul ∉ s.toList) : nul ∉ (quote s).toList := by
  unfold quote
  split_ifs
  · decide
  · exact h
  · rw [String.toList_ofList]
    simp only [List.cons_append, List.mem_cons, List.mem_append, List.mem_flatMap,
      List.not_mem_nil, or_false]
    rintro (hmem | ⟨c, hc, hmem⟩ | hmem)
    · exact absurd hmem (by decide)
    · unfold escapeQuote at hmem
      split_ifs at hmem
      · exact absurd hmem (by decide)
      · exact h (List.mem_singleton.mp hmem ▸ hc)
    · exact absurd hmem (by decide)

theorem nul_notMem_join {argv : List String} (h : ∀ a ∈ argv, nul ∉ a.toList) :
    nul ∉ (join argv).toList := by
  induction argv with
  | nil => decide
  | cons a argv ih =>
    have ha := nul_notMem_quote (h a List.mem_cons_self)
    cases argv with
    | nil => simpa [join] using ha
    | cons b argv =>
      rw [toList_join_cons, List.mem_append, List.mem_cons]
      rintro (hmem | hmem | hmem)
      · exact ha hmem
      · exact absurd hmem (by decide)
      · exact ih (fun c hc => h c (List.mem_cons_of_mem _ hc)) hmem

@[simp] theorem text_quoted (status : ℕ) (s : String) : (quoted s).text status = s := by
  unfold Word.text quoted bare
  split_ifs <;> simp [List.flatMap_map]

/-- A line with a NUL in it is not read. -/
theorem lexFrom_single_nul {s : List Char} (h : nul ∈ s) (w : Word) (rest : List Char) :
    lexFrom .single (some w) (s.flatMap escapeQuote ++ rest) = none := by
  induction s generalizing w with
  | nil => cases h
  | cons c s ih =>
    rw [List.flatMap_cons, List.append_assoc]
    by_cases hc : c = nul
    · subst hc
      rfl
    · rw [lexFrom_escapeQuote hc]
      exact ih ((List.mem_cons.mp h).resolve_left (Ne.symm hc)) _

theorem lexFrom_quote_nul {s : String} (h : nul ∈ s.toList) (rest : List Char) :
    lexFrom .bare none ((quote s).toList ++ rest) = none := by
  have hempty : s ≠ "" := by
    rintro rfl
    cases h
  have hsafe : ¬ s.toList.all isSafe = true := by
    intro hall
    exact (isPlain_ne (isPlain_of_isSafe (List.all_eq_true.mp hall nul h))).1 rfl
  rw [quote, if_neg hempty, if_neg hsafe, String.toList_ofList, List.cons_append, List.cons_append,
    List.append_assoc, lexFrom, if_neg (by decide), if_pos rfl]
  exact lexFrom_single_nul h [] _

theorem lexFrom_join_nul {argv : List String} {a : String} (ha : a ∈ argv) (hnul : nul ∈ a.toList)
    (rest : List Char) : lexFrom .bare none ((join argv).toList ++ rest) = none := by
  induction argv with
  | nil => cases ha
  | cons b argv ih =>
    have hone : argv = [] → (join (b :: argv)).toList = (quote b).toList := by
      rintro rfl
      simp [join]
    by_cases hb : nul ∈ b.toList
    · cases argv with
      | nil =>
        rw [hone rfl]
        exact lexFrom_quote_nul hb rest
      | cons c argv =>
        rw [toList_join_cons, List.append_assoc]
        exact lexFrom_quote_nul hb _
    · have hmem : a ∈ argv := (List.mem_cons.mp ha).resolve_left fun heq => hb (heq ▸ hnul)
      cases argv with
      | nil => cases hmem
      | cons c argv =>
        rw [toList_join_cons, List.append_assoc, lexFrom_quote hb, List.cons_append, ends_blank,
          lexFrom_blank, ih hmem]
        rfl

/-! ### How joined words are parsed -/

section Parse

variable {reserved : String → Bool} {name : String} {args : List String} {ts : List Token}

theorem collect_words (argv : List String) (ts : List Token) :
    collect (words argv ++ ts) = (collect ts).map fun (ws, rs) => (argv.map quoted ++ ws, rs) := by
  induction argv with
  | nil => exact (congrFun Option.map_id _).symm
  | cons a argv ih =>
    show (collect (words argv ++ ts)).map _ = _
    rw [ih, Option.map_map]
    rfl

/-- A word that names a command: no assignment, and no reserved word without quotes. -/
def CommandWord (reserved : String → Bool) (name : String) : Prop :=
  isAssignment (quoted name) = false ∧ ¬ (quoted name = bare name ∧ reserved name = true)

theorem letters_map (isQuoted : Bool) (cs : List Char) :
    Word.letters (cs.map (Piece.char · isQuoted)) = String.ofList cs := by
  rw [Word.letters, List.filterMap_map]
  exact congrArg String.ofList List.filterMap_some

@[simp] theorem letters_quoted (name : String) : (quoted name).letters = name := by
  unfold quoted bare
  split_ifs
  · rw [letters_map, String.ofList_toList]
  · rw [letters_map, String.ofList_toList]

/-- A command whose first word names one. -/
theorem simpleCommand_eq {first : Word} {ws : List Word} {rs : List (ℕ × Word)}
    (hcollect : collect ts = some (first :: ws, rs)) (hassign : isAssignment first = false)
    (hreserved : ¬ (first = bare first.letters ∧ reserved first.letters = true)) :
    simpleCommand reserved ts = some ⟨[], first :: ws, rs⟩ := by
  rw [simpleCommand, hcollect]
  simp only [Option.bind_eq_bind, Option.bind_some, reduceCtorEq, false_and, if_false,
    List.head?_cons, if_neg hreserved]
  rw [List.takeWhile_cons_of_neg (by rw [hassign]; decide),
    List.dropWhile_cons_of_neg (by rw [hassign]; decide)]

theorem simpleCommand_words (args : List String) (hname : CommandWord reserved name)
    {rs : List (ℕ × Word)} (hts : collect ts = some ([], rs)) : simpleCommand reserved (words (name :: args) ++ ts) =
      some ⟨[], (name :: args).map quoted, rs⟩ := by
  have hcollect : collect (words (name :: args) ++ ts) = some ((name :: args).map quoted, rs) := by
    rw [collect_words, hts]
    exact congrArg (fun ws => some (ws, rs)) (List.append_nil _)
  exact simpleCommand_eq hcollect hname.1 (by rw [letters_quoted]; exact hname.2)

theorem simpleCommand_nil (args : List String) (hname : CommandWord reserved name) :
    simpleCommand reserved (words (name :: args)) = some ⟨[], (name :: args).map quoted, []⟩ := by
  have hcommand : simpleCommand reserved (words (name :: args) ++ []) = _ :=
    simpleCommand_words args hname rfl
  rwa [List.append_nil] at hcommand

theorem notMem_words {t : Token} (ht : ∀ w, t ≠ .word w) (argv : List String) : t ∉ words argv := by
  intro hmem
  obtain ⟨a, -, heq⟩ := List.mem_map.mp hmem
  exact ht _ heq.symm

theorem mapM_singleton {α β : Type} (f : α → Option β) (x : α) :
    [x].mapM f = (f x).map fun y => [y] := by
  cases hfx : f x <;> simp [List.mapM_cons, hfx]

/-- A line that is one simple command. -/
theorem parse_single {line : String} (hlex : lex line = some ts) (hsemi : Token.semi ∉ ts)
    (hand : Token.andIf ∉ ts) :
    parse reserved line = (simpleCommand reserved ts).map fun c => [[c]] := by
  rw [parse, hlex]
  rw [Option.bind_eq_bind, Option.bind_some, List.splitOn_eq_singleton hsemi, mapM_singleton,
    List.splitOn_eq_singleton hand, mapM_singleton, Option.map_map]
  rfl

/-- **When joined words are read as a command of just these words**: there is no NUL in them, and
the first of them names a command. -/
theorem parse_join_iff : parse reserved (join (name :: args)) =
      some [[⟨[], (name :: args).map quoted, []⟩]] ↔
    (∀ a ∈ name :: args, nul ∉ a.toList) ∧ CommandWord reserved name := by
  constructor
  · intro h
    have hnul : ∀ a ∈ name :: args, nul ∉ a.toList := by
      intro a ha hnul
      have hlex : lex (join (name :: args)) = none := by
        rw [lex, ← lexFrom_join_nul ha hnul [], List.append_nil]
      rw [parse, hlex] at h
      cases h
    rw [parse_single (lex_join hnul) (notMem_words (by simp) _)
      (notMem_words (by simp) _),
      Option.map_eq_some_iff] at h
    obtain ⟨c, hc, heq⟩ := h
    obtain rfl : c = ⟨[], (name :: args).map quoted, []⟩ := by simpa using heq
    have hcollect := collect_words (name :: args) []
    rw [List.append_nil] at hcollect
    rw [simpleCommand, hcollect] at hc
    simp only [collect, List.map_cons, Option.map_some, List.append_nil, Option.bind_eq_bind,
      Option.bind_some, reduceCtorEq, false_and, if_false, List.head?_cons, letters_quoted] at hc
    split_ifs at hc with hreserved
    refine ⟨hnul, ?_, hreserved⟩
    have htake := congrArg Command.assigns (Option.some.inj hc)
    by_contra hassign
    rw [List.takeWhile_cons_of_pos (by simpa using hassign)] at htake
    cases htake
  · rintro ⟨hnul, hname⟩
    have hcommand := simpleCommand_nil args hname
    rw [parse_single (lex_join hnul) (notMem_words (by simp) _)
      (notMem_words (by simp) _), hcommand]
    rfl

end Parse

/-! ### What joined words do -/

section Run

variable {host : Host} {name dir : String} {args : List String} {files : Files}

/-- A word that names a utility: the shell looks for a program of that name. -/
structure Names (host : Host) (name : String) : Prop where
  command : CommandWord host.reserved name
  ne_cd : name ≠ "cd"
  ne_exec : name ≠ "exec"
  notSpecial : host.special name = false

theorem map_text_quoted (status : ℕ) (argv : List String) :
    (argv.map quoted).map (Word.text status) = argv := by
  rw [List.map_map]
  exact (List.map_congr_left fun a _ => text_quoted status a).trans (List.map_id argv)

/-- A command that names a utility. -/
theorem Command.run_utility {c : Command} {s : State} {redirects : List (ℕ × String)}
    (hassigns : c.assigns = []) (hwords : c.words.map (·.text s.status) = name :: args)
    (hredirects : c.redirects.map (fun (fd, w) => (fd, resolve s.dir (w.text s.status))) = redirects)
    (hcd : name ≠ "cd") (hexec : name ≠ "exec") (hspecial : host.special name = false) :
    c.run host s = utility host (name :: args) redirects s := by
  unfold Command.run
  rw [hassigns, hwords, hredirects]
  split
  · exact absurd (List.cons.inj ‹_›).1 hcd
  · exact absurd (List.cons.inj ‹_›).1 hexec
  · rename_i heq
    obtain ⟨rfl, rfl⟩ := List.cons.inj heq
    rw [if_neg]
    rintro (h | h | h)
    · exact hcd h
    · exact hexec h
    · rw [hspecial] at h
      cases h
  · rename_i hother
    exact absurd rfl (hother name args rfl)

/-- A utility without redirections. -/
theorem utility_nil (argv : List String) (s : State) : utility host argv [] s =
    some (s.after (host.spawn argv s.dir s.files).1 (host.spawn argv s.dir s.files).2) := by
  simp [utility, openAll, writeAll, own, Ended.stream]

theorem runAnd_singleton (c : Command) (s : State) : runAnd host [c] s = c.run host s := by
  rw [runAnd]
  cases c.run host s with
  | none => rfl
  | some s' =>
    rw [Option.bind_eq_bind, Option.bind_some, runAnd]
    exact ite_self _

theorem runAnd_cons {c : Command} {s s' : State} (hc : c.run host s = some s') (cs : List Command) :
    runAnd host (c :: cs) s =
      if s'.status = 0 ∧ s'.gone = false then runAnd host cs s' else some s' := by
  rw [runAnd, hc]
  rfl

theorem runAll_singleton (list : List Command) (s : State) :
    runAll host [list] s = runAnd host list s := by
  rw [runAll]
  cases runAnd host list s with
  | none => rfl
  | some s' =>
    rw [Option.bind_eq_bind, Option.bind_some, runAll]
    exact ite_self _

/-- Two commands, one after the other. -/
theorem runAll_two {c₁ c₂ : Command} {s s₁ : State} (hfirst : c₁.run host s = some s₁)
    (hgone : s₁.gone = false) : runAll host [[c₁], [c₂]] s = c₂.run host s₁ := by
  rw [runAll, runAnd_singleton, hfirst, Option.bind_eq_bind, Option.bind_some,
    if_neg (by rw [hgone]; decide), runAll_singleton, runAnd_singleton]

theorem run_eq {line : String} {lists : List (List Command)} {s : State}
    (hparse : parse host.reserved line = some lists)
    (hrun : runAll host lists (.start dir files) = some s) :
    run host line dir files = some (⟨s.status, s.stdout, s.stderr⟩, s.files) := by
  rw [run, hparse]
  show (runAll host lists (.start dir files)).bind _ = _
  rw [hrun]
  rfl

/-- A line that is one simple command. -/
theorem run_single {line : String} {c : Command} (hparse : parse host.reserved line = some [[c]]) :
    run host line dir files = (c.run host (.start dir files)).map fun s =>
      (⟨s.status, s.stdout, s.stderr⟩, s.files) := by
  rw [run, hparse]
  show (runAll host [[c]] (.start dir files)).bind _ = _
  rw [runAll_singleton, runAnd_singleton, Option.map_eq_bind]
  rfl

/-- **A line of joined words starts a utility with just these words**, and does nothing else. -/
theorem run_join (dir : String) (files : Files) (hnul : ∀ a ∈ name :: args, nul ∉ a.toList) (hname : Names host name) :
    run host (join (name :: args)) dir files = some (host.spawn (name :: args) dir files) := by
  have hrun : Command.run host ⟨[], (name :: args).map quoted, []⟩ (.start dir files) =
      utility host (name :: args) [] (.start dir files) :=
    Command.run_utility rfl (map_text_quoted 0 _) rfl hname.ne_cd hname.ne_exec hname.notSpecial
  rw [utility_nil] at hrun
  rw [run_single (parse_join_iff.mpr ⟨hnul, hname.command⟩), hrun]
  rfl

theorem names_cd (host : Host) : CommandWord host.reserved "cd" :=
  ⟨rfl, fun h => absurd h.2 (by rw [host.reserved_cd]; decide)⟩

theorem names_exec (host : Host) : CommandWord host.reserved "exec" :=
  ⟨rfl, fun h => absurd h.2 (by rw [host.reserved_exec]; decide)⟩

/-- Two lines of joined words, joined by `&&`. -/
theorem parse_and {reserved : String → Bool} {name₂ : String} {args₂ : List String}
    (hnul : ∀ a ∈ name :: args, nul ∉ a.toList) (hnul₂ : ∀ a ∈ name₂ :: args₂, nul ∉ a.toList)
    (hname : CommandWord reserved name) (hname₂ : CommandWord reserved name₂) :
    parse reserved (join (name :: args) ++ " && " ++ join (name₂ :: args₂)) =
      some [[⟨[], (name :: args).map quoted, []⟩, ⟨[], (name₂ :: args₂).map quoted, []⟩]] := by
  have hlex : lex (join (name :: args) ++ " && " ++ join (name₂ :: args₂)) =
      some (words (name :: args) ++ .andIf :: words (name₂ :: args₂)) := by
    have hline : (join (name :: args) ++ " && " ++ join (name₂ :: args₂)).toList =
        (join (name :: args)).toList ++ ' ' :: '&' :: '&' :: ' ' :: (join (name₂ :: args₂)).toList := by
      simp
    have hsecond := lex_join hnul₂
    rw [lex] at hsecond
    rw [lex, hline, lexFrom_join hnul (ends_blank _), lexFrom_blank, lexFrom_andIf, lexFrom_blank,
      hsecond]
    rfl
  have hfirst := simpleCommand_nil args hname
  have hsecond := simpleCommand_nil args₂ hname₂
  have hsemi : Token.semi ∉ words (name :: args) ++ .andIf :: words (name₂ :: args₂) := by
    intro hmem
    rcases List.mem_append.mp hmem with hmem | hmem
    · exact notMem_words (by simp) _ hmem
    · exact notMem_words (by simp) _ ((List.mem_cons.mp hmem).resolve_left (by simp))
  rw [parse, hlex, Option.bind_eq_bind, Option.bind_some, List.splitOn_eq_singleton hsemi,
    mapM_singleton, List.splitOn_append_cons_self_of_not_mem (notMem_words (by simp) _),
    List.splitOn_eq_singleton (notMem_words (by simp) _), List.mapM_cons, hfirst, mapM_singleton,
    hsecond]
  rfl

/-- **Joined words behind `cd` and `exec`**: the utility is started in the directory, or not at all
where the shell cannot go there. -/
theorem run_cd {cwd : String} (hcwd : nul ∉ cwd.toList) (hback : cwd ≠ "-")
    (hnul : ∀ a ∈ name :: args, nul ∉ a.toList) (hdash : startsDash name = false) :
    run host (join ["cd", "--", cwd] ++ " && " ++ join ("exec" :: name :: args)) dir files =
      if host.isDir (resolve dir cwd) files then
        some (host.spawn (name :: args) (resolve dir cwd) files)
      else some (⟨host.failure, [], host.complaint⟩, files) := by
  have hnul_cd : ∀ a ∈ ["cd", "--", cwd], nul ∉ a.toList := by
    simpa using ⟨by decide, by decide, hcwd⟩
  have hnul_exec : ∀ a ∈ "exec" :: name :: args, nul ∉ a.toList :=
    List.forall_mem_cons.mpr ⟨by decide, hnul⟩
  have hparse := parse_and hnul_cd hnul_exec (names_cd host) (names_exec host)
  -- The first command, and the second where the first has gone there.
  have hcd : Command.run host ⟨[], ["cd", "--", cwd].map quoted, []⟩ (.start dir files) =
      if host.isDir (resolve dir cwd) files then
        some { State.start dir files with dir := resolve dir cwd, status := 0 }
      else some ((State.start dir files).fail host) := by
    simp [Command.run, hback, State.start]
    rfl
  have hexec (s : State) : Command.run host ⟨[], ("exec" :: name :: args).map quoted, []⟩ s =
      some { s.after (host.spawn (name :: args) s.dir s.files).1
        (host.spawn (name :: args) s.dir s.files).2 with gone := true } := by
    rw [Command.run, map_text_quoted]
    simp [hdash]
  by_cases hdir : host.isDir (resolve dir cwd) files
  · rw [if_pos hdir] at hcd ⊢
    have hand := runAnd_cons hcd [⟨[], ("exec" :: name :: args).map quoted, []⟩]
    rw [if_pos ⟨rfl, rfl⟩, runAnd_singleton, hexec] at hand
    rw [run_eq hparse ((runAll_singleton _ _).trans hand)]
    rfl
  · rw [if_neg hdir] at hcd ⊢
    have hand := runAnd_cons hcd [⟨[], ("exec" :: name :: args).map quoted, []⟩]
    rw [if_neg fun h => host.failure_ne h.1] at hand
    rw [run_eq hparse ((runAll_singleton _ _).trans hand)]
    rfl

theorem parse_redirect {path : String} {reserved : String → Bool}
    (hnul : ∀ a ∈ name :: args, nul ∉ a.toList) (hpath : nul ∉ path.toList)
    (hname : CommandWord reserved name) :
    parse reserved (join (name :: args) ++ " > " ++ quote path) =
      some [[⟨[], (name :: args).map quoted, [(1, quoted path)]⟩]] := by
  have hlex : lex (join (name :: args) ++ " > " ++ quote path) =
      some (words (name :: args) ++ [.redirect 1, .word (quoted path)]) := by
    have hline : (join (name :: args) ++ " > " ++ quote path).toList =
        (join (name :: args)).toList ++ ' ' :: '>' :: ' ' :: ((quote path).toList ++ []) := by
      simp
    rw [lex, hline, lexFrom_join hnul (ends_blank _), lexFrom_blank, lexFrom_redirect, lexFrom_blank,
      lexFrom_quote hpath]
    rfl
  have hnone {t : Token} (ht : ∀ w, t ≠ .word w) (hred : t ≠ .redirect 1) :
      t ∉ words (name :: args) ++ [.redirect 1, .word (quoted path)] := by
    simp [notMem_words ht, hred, ht]
  rw [parse_single hlex (hnone (by simp) (by simp)) (hnone (by simp) (by simp)),
    simpleCommand_words args hname rfl]
  rfl

/-- A utility with its output in a file. -/
theorem utility_one (argv : List String) (path : String) {s : State} (hdir : s.dir = dir)
    (hfiles : s.files = files) :
    utility host argv [(1, path)] s =
      if host.writable path files then
        let (e, files) := host.spawn argv dir (Function.update files path (some []))
        if files path = some [] then
          some (s.after ⟨e.status, [], e.stderr⟩ (Function.update files path (some e.stdout)))
        else none
      else some (s.fail host) := by
  subst hdir hfiles
  by_cases hwritable : host.writable path s.files
  · simp [utility, openAll, hwritable, own, writeAll, Ended.stream]
  · simp [utility, openAll, hwritable]

/-- A utility with its output in two files. -/
theorem utility_two (argv : List String) {out err : String} (hne : out ≠ err) {s : State}
    (hdir : s.dir = dir) (hfiles : s.files = files) :
    utility host argv [(1, out), (2, err)] s =
      if host.writable out files then
        if host.writable err (Function.update files out (some [])) then
          let (e, files) := host.spawn argv dir
            (Function.update (Function.update files out (some [])) err (some []))
          if files out = some [] ∧ files err = some [] then
            some (s.after ⟨e.status, [], []⟩
              (Function.update (Function.update files out (some e.stdout)) err (some e.stderr)))
          else none
        else some ({ s with files := Function.update files out (some []) }.fail host)
      else some (s.fail host) := by
  subst hdir hfiles
  by_cases hout : host.writable out s.files
  · by_cases herr : host.writable err (Function.update s.files out (some []))
    · simp [utility, openAll, hout, herr, hne, own, writeAll, Ended.stream]
    · simp [utility, openAll, hout, herr, hne]
  · simp [utility, openAll, hout, hne]

/-- **Joined words with their output in a file**, where the utility leaves that file to the shell. -/
theorem run_redirect (dir : String) (files : Files) {path : String} (hnul : ∀ a ∈ name :: args, nul ∉ a.toList)
    (hpath : nul ∉ path.toList) (hname : Names host name) :
    run host (join (name :: args) ++ " > " ++ quote path) dir files =
      if host.writable (resolve dir path) files then
        let (e, files) := host.spawn (name :: args) dir
          (Function.update files (resolve dir path) (some []))
        if files (resolve dir path) = some [] then
          some (⟨e.status, [], e.stderr⟩, Function.update files (resolve dir path) (some e.stdout))
        else none
      else some (⟨host.failure, [], host.complaint⟩, files) := by
  have hcommand : Command.run host ⟨[], (name :: args).map quoted, [(1, quoted path)]⟩
      (.start dir files) = utility host (name :: args) [(1, resolve dir path)] (.start dir files) := by
    refine Command.run_utility rfl (map_text_quoted 0 _) ?_ hname.ne_cd hname.ne_exec hname.notSpecial
    rw [List.map_singleton]
    dsimp only
    rw [text_quoted]
    rfl
  rw [run_single (parse_redirect hnul hpath hname.command), hcommand,
    utility_one _ _ (dir_start dir files) (files_start dir files)]
  by_cases hwritable : host.writable (resolve dir path) files
  · rw [if_pos hwritable, if_pos hwritable]
    dsimp only
    split_ifs <;> rfl
  · rw [if_neg hwritable, if_neg hwritable]
    rfl

end Run

end Shell
