import Xv6.Basic
import Xv6.Lib.Bytes
import Xv6.Lib.Hoare

/-!
# `sh.c`: the parser of the shell

The input is a buffer `buf`, which holds a line and the NUL behind it; a pointer into it is an index.
The parser moves the cursor `*ps`, which is the state here, and stops with `panic`. The bound on the
turns of its loops and on the depth of its recursion is a parameter.
-/

namespace Xv6.Shell

open Lib

abbrev MAXARGS : ℕ := 10

abbrev O_RDONLY : ℕ := 0x000
abbrev O_WRONLY : ℕ := 0x001
abbrev O_CREATE : ℕ := 0x200

/-- A stretch of the buffer, from `q` up to `eq`. -/
structure Span where
  q : ℕ
  eq : ℕ
  deriving DecidableEq

/-- `struct cmd`. The pairs `argv[i]`, `eargv[i]` and `file`, `efile` are spans. -/
inductive Cmd
  | exec (argv : List Span)
  | redir (cmd : Cmd) (file : Span) (mode fd : ℕ)
  | pipe (left right : Cmd)
  | list (left right : Cmd)
  | back (cmd : Cmd)
  deriving DecidableEq

/-- `cmd->argv[argc] = q; cmd->eargv[argc] = eq`, where `cmd` is the command inside the redirections
`ret`. -/
def Cmd.addArg : Cmd → Span → Cmd
  | exec argv, a => exec (argv ++ [a])
  | redir cmd file mode fd, a => redir (cmd.addArg a) file mode fd
  | pipe left right, _ => pipe left right
  | list left right, _ => list left right
  | back cmd, _ => back cmd

/-! ### Tokens -/

/-- What `gettoken` returns: 0, a character, `'+'` for `>>`, or `'a'` for a word. -/
inductive Tok
  | eof
  | pipe
  | lpar
  | rpar
  | semi
  | amp
  | lt
  | gt
  | gtgt
  | word
  deriving DecidableEq

abbrev Parser := Prog ℕ Fault

def whitespace : List Byte := [ch ' ', ch '\t', ch '\r', ch '\n', 0x0B]
def symbols : List Byte := [ch '<', ch '|', ch '>', ch '&', ch ';', ch '(', ch ')']

/-- Whether `strchr` finds the character. -/
def strchr (s : List Byte) (c : Byte) : Bool := s.contains c

/-- `*s`. -/
def charAt (buf : List Byte) (s : ℕ) : Byte := buf.getD s 0

/-- `while(s < es && p(*s)) s++`, for at most `n` characters. -/
def scanN (p : Byte → Bool) (buf : List Byte) : ℕ → ℕ → ℕ
  | 0, s => s
  | n + 1, s => if p (charAt buf s) then scanN p buf n (s + 1) else s

/-- `while(s < es && p(*s)) s++`. -/
def scan (p : Byte → Bool) (buf : List Byte) (es s : ℕ) : ℕ := scanN p buf (es - s) s

/-- The `switch` of `gettoken`: the token at `s` and its end. -/
def token (buf : List Byte) (es s : ℕ) : Tok × ℕ :=
  let c := charAt buf s
  if c = 0 then (.eof, s)
  else if c = ch '|' then (.pipe, s + 1)
  else if c = ch '(' then (.lpar, s + 1)
  else if c = ch ')' then (.rpar, s + 1)
  else if c = ch ';' then (.semi, s + 1)
  else if c = ch '&' then (.amp, s + 1)
  else if c = ch '<' then (.lt, s + 1)
  else if c = ch '>' then if charAt buf (s + 1) = ch '>' then (.gtgt, s + 2) else (.gt, s + 1)
  else (.word, scan (fun c => !strchr whitespace c && !strchr symbols c) buf es s)

def gettoken (buf : List Byte) (es : ℕ) : Parser (Tok × Span) := fun s =>
  let q := scan (strchr whitespace) buf es s
  let (ret, eq) := token buf es q
  (.ok (ret, ⟨q, eq⟩), scan (strchr whitespace) buf es eq)

def peek (buf : List Byte) (es : ℕ) (toks : List Byte) : Parser Bool := fun s =>
  let s := scan (strchr whitespace) buf es s
  (.ok (charAt buf s != 0 && strchr toks (charAt buf s)), s)

/-! ### The parser -/

section parse

variable (buf : List Byte) (es : ℕ)

/-- The node that a redirection adds. -/
def redircmd (cmd : Cmd) (file : Span) : Tok → Cmd
  | .lt => .redir cmd file O_RDONLY 0
  | .gt => .redir cmd file (O_WRONLY ||| O_CREATE) 1
  | .gtgt => .redir cmd file (O_WRONLY ||| O_CREATE) 1
  | _ => cmd

def parseredirs (n : ℕ) (cmd : Cmd) : Parser Cmd :=
  Prog.loop .loop (fun cmd => do
    if ← peek buf es [ch '<', ch '>'] then
      let (tok, _) ← gettoken buf es
      let (tok', file) ← gettoken buf es
      if tok' ≠ .word then throw (.panic "missing file for redirection")
      else pure (.inl (redircmd cmd file tok))
    else pure (.inr cmd)) n cmd

/-- The loop of `parseline`. -/
def parseamps (n : ℕ) (cmd : Cmd) : Parser Cmd :=
  Prog.loop .loop (fun cmd => do
    if ← peek buf es [ch '&'] then
      let _ ← gettoken buf es
      pure (.inl (.back cmd))
    else pure (.inr cmd)) n cmd

/-- A turn of the loop of `parseexec`. -/
def parsearg (n : ℕ) (ret : Cmd) (argc : ℕ) : Parser ((Cmd × ℕ) ⊕ Cmd) := do
  if ← peek buf es [ch '|', ch ')', ch '&', ch ';'] then pure (.inr ret)
  else
    let (tok, a) ← gettoken buf es
    if tok = .eof then pure (.inr ret)
    else if tok ≠ .word then throw (.panic "syntax")
    else if argc + 1 ≥ MAXARGS then throw (.panic "too many args")
    else
      let ret ← parseredirs buf es n (ret.addArg a)
      pure (.inl (ret, argc + 1))

/-- The loop of `parseexec`, at most `m` turns of it. -/
def parseargs (n m : ℕ) (ret : Cmd) (argc : ℕ) : Parser Cmd :=
  Prog.loop .loop (fun x => parsearg buf es n x.1 x.2) m (ret, argc)

mutual

def parseline : ℕ → Parser Cmd
  | 0 => throw .loop
  | n + 1 => do
    let cmd ← parsepipe n
    let cmd ← parseamps buf es n cmd
    if ← peek buf es [ch ';'] then
      let _ ← gettoken buf es
      let right ← parseline n
      pure (.list cmd right)
    else pure cmd

def parsepipe : ℕ → Parser Cmd
  | 0 => throw .loop
  | n + 1 => do
    let cmd ← parseexec n
    if ← peek buf es [ch '|'] then
      let _ ← gettoken buf es
      let right ← parsepipe n
      pure (.pipe cmd right)
    else pure cmd

def parseblock : ℕ → Parser Cmd
  | 0 => throw .loop
  | n + 1 => do
    if ← peek buf es [ch '('] then
      let _ ← gettoken buf es
      let cmd ← parseline n
      if ← peek buf es [ch ')'] then
        let _ ← gettoken buf es
        parseredirs buf es n cmd
      else throw (.panic "syntax - missing )")
    else throw (.panic "parseblock")

def parseexec : ℕ → Parser Cmd
  | 0 => throw .loop
  | n + 1 => do
    if ← peek buf es [ch '('] then parseblock n
    else
      let ret ← parseredirs buf es n (.exec [])
      parseargs buf es n n ret 0

end

end parse

/-! ### The strings -/

def nulterminate : Cmd → List Byte → List Byte
  | .exec argv, buf => argv.foldl (fun buf a => buf.set a.eq 0) buf
  | .redir cmd file _ _, buf => (nulterminate cmd buf).set file.eq 0
  | .pipe left right, buf => nulterminate right (nulterminate left buf)
  | .list left right, buf => nulterminate right (nulterminate left buf)
  | .back cmd, buf => nulterminate cmd buf

def strlen (buf : List Byte) : ℕ := (buf.takeWhile (· ≠ 0)).length

/-- The part of `parsecmd` that moves the cursor. -/
def parsetree (buf : List Byte) (es n : ℕ) : Parser Cmd := do
  let cmd ← parseline buf es n
  let _ ← peek buf es []
  if (← get) ≠ es then throw (.panic "syntax") else pure cmd

/-- `parsecmd` of the line `s`, with the bound `n`: the tree and the buffer that it leaves. -/
def parsecmd (n : ℕ) (s : List Byte) : Except Fault (Cmd × List Byte) :=
  let buf := s ++ [0]
  match (parsetree buf (strlen buf) n).eval 0 with
  | (.ok cmd, _) => .ok (cmd, nulterminate cmd buf)
  | (.error e, _) => .error e

end Xv6.Shell
