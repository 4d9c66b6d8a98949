import X86OsDev.Lib.CString

/-! # The parser of the shell (sh.c)

The parser sees the line through `peek` and `gettoken` only, so its functions
take these two as a cursor. Strings are pairs of addresses into the line. A call
of `panic` gives an error, and so does running out of fuel, which bounds the
depth of the recursion and the length of the loops. Memory for the commands is
never short.
-/
namespace X86OsDev.Xv6.Sh
open Memory

def chr (c : Char) : UInt8 := c.toUInt8

def maxargs : ℕ := 10

def oRdonly : ℕ := 0x000
def oWronly : ℕ := 0x001
def oCreate : ℕ := 0x200

/-- `" \t\r\n\v"` -/
def whitespace : List UInt8 := [chr ' ',9,13,10,11]
/-- `"<|>&;()"` -/
def symbols : List UInt8 := [chr '<',chr '|',chr '>',chr '&',chr ';',chr '(',chr ')']

/-- `strchr(set, c) != 0`; the set has no nul, so a nul is not found in it -/
def strchr (set : List UInt8) (c : UInt8) : Bool := set.contains c

/-- A parsed command. The strings of `exec` and the file of `redir` go from the first
address up to the second. -/
inductive Cmd
  | exec (argv : List (ℕ × ℕ))
  | redir (cmd : Cmd) (file efile mode fd : ℕ)
  | pipe (left right : Cmd)
  | list (left right : Cmd)
  | back (cmd : Cmd)
  deriving DecidableEq, Repr

/-- The calls of `panic`. -/
inductive Stop
  /-- "missing file for redirection" -/
  | missingFile
  /-- "parseblock" -/
  | parseblock
  /-- "syntax - missing )" -/
  | missingParen
  /-- "syntax" -/
  | syntaxError
  /-- "too many args" -/
  | tooManyArgs
  /-- "leftovers", then "syntax" -/
  | leftovers
  | outOfFuel
  deriving DecidableEq, Repr

/-- What `gettoken` returns and stores in `q` and `eq`. -/
structure Token where
  ret : UInt8
  q : ℕ
  eq : ℕ
  deriving DecidableEq, Repr

/-- `gettoken(ps, es, &q, &eq)` and `peek(ps, es, toks)`, with the cursor that they leave. -/
structure Cursor (σ : Type) where
  gettoken : σ → Token × σ
  peek : σ → List UInt8 → Bool × σ

section Chars
variable (m : Mem)

/-- The loop `while(s < es && p(*s)) s++` for `n = es - s`. -/
def scan (p : UInt8 → Bool) : ℕ → ℕ → ℕ
  | 0, s => s
  | n + 1, s => if p (m s) then scan p n (s + 1) else s

def skip (es s : ℕ) : ℕ := scan m (strchr whitespace) (es - s) s

/-- The characters of a word. -/
def wordChar (c : UInt8) : Bool := !strchr whitespace c && !strchr symbols c

/-- The switch of `gettoken` on `*s`: `ret` and the new `s`. -/
def tokenAt (es s : ℕ) : UInt8 × ℕ :=
  if m s = 0 then (0,s)
  else if strchr [chr '|',chr '(',chr ')',chr ';',chr '&',chr '<'] (m s) then (m s,s + 1)
  else if m s = chr '>' then
    if m (s + 1) = chr '>' then (chr '+',s + 2) else (m s,s + 1)
  else (chr 'a',scan m wordChar (es - s) s)

def gettoken (es ps : ℕ) : Token × ℕ :=
  let q := skip m es ps
  let t := tokenAt m es q
  (⟨t.1,q,t.2⟩,skip m es t.2)

def peek (es ps : ℕ) (toks : List UInt8) : Bool × ℕ :=
  let s := skip m es ps
  (decide (m s ≠ 0) && strchr toks (m s),s)

/-- The line in memory, up to `es`. -/
def lineCursor (es : ℕ) : Cursor ℕ where
  gettoken := gettoken m es
  peek := peek m es

/-- `strlen` of a string of less than `fuel` bytes -/
def strlen (fuel s : ℕ) : ℕ := scan m (· != 0) fuel s - s

end Chars

/-- The switch of `parseredirs`. -/
def redirect (tok : UInt8) (cmd : Cmd) (file : Token) : Cmd :=
  if tok = chr '<' then .redir cmd file.q file.eq oRdonly 0
  else if tok = chr '>' then .redir cmd file.q file.eq (oWronly ||| oCreate) 1
  else if tok = chr '+' then .redir cmd file.q file.eq (oWronly ||| oCreate) 1
  else cmd

/-- `cmd->argv[argc] = q; cmd->eargv[argc] = eq` for the `execcmd` below the redirections of `ret` -/
def Cmd.addArg (w : ℕ × ℕ) : Cmd → Cmd
  | .exec argv => .exec (argv ++ [w])
  | .redir cmd file efile mode fd => .redir (cmd.addArg w) file efile mode fd
  | cmd => cmd

section Parse
variable {σ : Type} (c : Cursor σ)

def parseredirs : ℕ → Cmd → σ → Except Stop (Cmd × σ)
  | 0, _, _ => .error .outOfFuel
  | n + 1, cmd, ps =>
    let (found,ps) := c.peek ps [chr '<',chr '>']
    if found then
      let (tok,ps) := c.gettoken ps
      let (file,ps) := c.gettoken ps
      if file.ret ≠ chr 'a' then .error .missingFile
      else parseredirs n (redirect tok.ret cmd file) ps
    else .ok (cmd,ps)

/-- The loop of `parseexec`. -/
def parseargs : ℕ → ℕ → Cmd → σ → Except Stop (Cmd × σ)
  | 0, _, _, _ => .error .outOfFuel
  | n + 1, argc, ret, ps =>
    let (found,ps) := c.peek ps [chr '|',chr ')',chr '&',chr ';']
    if found then .ok (ret,ps)
    else
      let (tok,ps) := c.gettoken ps
      if tok.ret = 0 then .ok (ret,ps)
      else if tok.ret ≠ chr 'a' then .error .syntaxError
      else if maxargs ≤ argc + 1 then .error .tooManyArgs
      else do
        let (ret,ps) ← parseredirs c n (ret.addArg (tok.q,tok.eq)) ps
        parseargs n (argc + 1) ret ps

/-- The loop of `parseline`. -/
def parsebacks : ℕ → Cmd → σ → Except Stop (Cmd × σ)
  | 0, _, _ => .error .outOfFuel
  | n + 1, cmd, ps =>
    let (found,ps) := c.peek ps [chr '&']
    if found then
      let (_,ps) := c.gettoken ps
      parsebacks n (.back cmd) ps
    else .ok (cmd,ps)

mutual

def parseline : ℕ → σ → Except Stop (Cmd × σ)
  | 0, _ => .error .outOfFuel
  | n + 1, ps => do
    let (cmd,ps) ← parsepipe n ps
    let (cmd,ps) ← parsebacks c n cmd ps
    let (found,ps) := c.peek ps [chr ';']
    if found then
      let (_,ps) := c.gettoken ps
      let (right,ps) ← parseline n ps
      .ok (.list cmd right,ps)
    else .ok (cmd,ps)

def parsepipe : ℕ → σ → Except Stop (Cmd × σ)
  | 0, _ => .error .outOfFuel
  | n + 1, ps => do
    let (cmd,ps) ← parseexec n ps
    let (found,ps) := c.peek ps [chr '|']
    if found then
      let (_,ps) := c.gettoken ps
      let (right,ps) ← parsepipe n ps
      .ok (.pipe cmd right,ps)
    else .ok (cmd,ps)

def parseexec : ℕ → σ → Except Stop (Cmd × σ)
  | 0, _ => .error .outOfFuel
  | n + 1, ps =>
    let (found,ps) := c.peek ps [chr '(']
    if found then parseblock n ps
    else do
      let (ret,ps) ← parseredirs c n (.exec []) ps
      parseargs c n 0 ret ps

def parseblock : ℕ → σ → Except Stop (Cmd × σ)
  | 0, _ => .error .outOfFuel
  | n + 1, ps =>
    let (found,ps) := c.peek ps [chr '(']
    if !found then .error .parseblock
    else do
      let (_,ps) := c.gettoken ps
      let (cmd,ps) ← parseline n ps
      let (found,ps) := c.peek ps [chr ')']
      if !found then .error .missingParen
      else
        let (_,ps) := c.gettoken ps
        parseredirs c n cmd ps

end

end Parse

/-- `nulterminate`; the loop over the strings ends at a null pointer -/
def nulterminate : Cmd → Mem → Mem
  | .exec argv, m => (argv.takeWhile (·.1 ≠ 0)).foldl (fun m w => store8 m w.2 0) m
  | .redir cmd _ efile _ _, m => store8 (nulterminate cmd m) efile 0
  | .pipe left right, m => nulterminate right (nulterminate left m)
  | .list left right, m => nulterminate right (nulterminate left m)
  | .back cmd, m => nulterminate cmd m

/-- `parsecmd`: the command and the memory when it returns -/
def parsecmd (fuel : ℕ) (m : Mem) (s : ℕ) : Except Stop (Cmd × Mem) := do
  let es := s + strlen m fuel s
  let (cmd,ps) ← parseline (lineCursor m es) fuel s
  let (_,ps) := peek m es ps []
  if ps ≠ es then .error .leftovers
  else .ok (cmd,nulterminate cmd m)

end X86OsDev.Xv6.Sh
