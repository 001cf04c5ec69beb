import Mathlib.Algebra.Ring.Nat
import Xv6.Lib.Wp

set_option autoImplicit false

/-! # The parser of the shell

`gettoken`, `peek` and the recursive descent of `user/sh.c`. A `char *` into the line is what is left
of the line from there on, so `s < es` says that the list is not empty, and `*s` is its first character,
or NUL at the end. The parser's state is the cursor `*ps`.

The functions are given a number of turns (`fuel`) for their loops and calls of each other. -/

namespace Xv6.Shell

/-- A `char *` into the line. -/
abbrev Str := List Char

def NUL : Char := Char.ofNat 0

def MAXARGS : Nat := 10

def whitespace : Str := [' ', '\t', '\r', '\n', Char.ofNat 11]

def symbols : Str := ['<', '|', '>', '&', ';', '(', ')']

/-- A string from `q` to before `eq`. -/
structure Word where
  q : Str
  eq : Str
  deriving DecidableEq, Repr

/-- Parsed command representation, over the strings `ω`. -/
inductive Cmd (ω : Type) where
  | exec (argv : List ω)
  | redir (cmd : Cmd ω) (file : ω) (mode fd : Nat)
  | pipe (left right : Cmd ω)
  | list (left right : Cmd ω)
  | back (cmd : Cmd ω)
  deriving DecidableEq, Repr

inductive Stop where
  | panic (msg : String)
  | fuel
  deriving DecidableEq, Repr

abbrev Parser := StateT Str (Except Stop)

/-! ## Tokens -/

/-- `while(s < es && strchr(whitespace, *s)) s++;` -/
def skip (s : Str) : Str := s.dropWhile whitespace.contains

/-- Neither a blank nor a symbol. -/
def isWord (c : Char) : Bool := !whitespace.contains c && !symbols.contains c

/-- `*s` -/
def deref (s : Str) : Char := s.headD NUL

/-- The `switch` of `gettoken`: the kind of the token at `s`, and its end. -/
def scan (s : Str) : Char × Str :=
  if deref s = NUL then (NUL, s)
  else if ['|', '(', ')', ';', '&', '<'].contains (deref s) then (deref s, s.tail)
  else if deref s = '>' then
    if deref s.tail = '>' then ('+', s.tail.tail) else ('>', s.tail)
  else ('a', s.dropWhile isWord)

/-- The kind of the next token, and where it begins and ends. -/
def gettoken : Parser (Char × Word) := do
  let q := skip (← get)
  set (skip (scan q).2)
  return ((scan q).1, ⟨q, (scan q).2⟩)

def peek (toks : Str) : Parser Bool := do
  modify skip
  let s ← get
  return decide (deref s ≠ NUL) && toks.contains (deref s)

/-! ## Commands -/

def O_RDONLY : Nat := 0
def O_WRONLY : Nat := 1
def O_CREATE : Nat := 0x200
def O_TRUNC : Nat := 0x400

/-- The redirection that the token `tok` stands for. -/
def redircmd (tok : Char) (cmd : Cmd Word) (w : Word) : Cmd Word :=
  if tok = '<' then .redir cmd w O_RDONLY 0
  else if tok = '>' then .redir cmd w (O_WRONLY ||| O_CREATE ||| O_TRUNC) 1
  else if tok = '+' then .redir cmd w (O_WRONLY ||| O_CREATE) 1
  else cmd

def parseredirs : Nat → Cmd Word → Parser (Cmd Word)
  | 0, _ => throw .fuel
  | fuel + 1, cmd => do
    if ← peek ['<', '>'] then
      let tok ← gettoken
      let file ← gettoken
      if file.1 ≠ 'a' then throw (.panic "missing file for redirection")
      else parseredirs fuel (redircmd tok.1 cmd file.2)
    else return cmd

/-- `cmd->argv[argc] = q; cmd->eargv[argc] = eq;`, where `cmd` is the command that the redirections
in `ret` are for. -/
def Cmd.addArg {ω : Type} (w : ω) : Cmd ω → Cmd ω
  | .exec argv => .exec (argv ++ [w])
  | .redir cmd file mode fd => .redir (cmd.addArg w) file mode fd
  | cmd => cmd

/-- The loop of `parseexec`. -/
def parseargs : Nat → Cmd Word → Nat → Parser (Cmd Word)
  | 0, _, _ => throw .fuel
  | fuel + 1, ret, argc => do
    if ← peek ['|', ')', '&', ';'] then return ret
    else
      let tok ← gettoken
      if tok.1 = NUL then return ret
      else if tok.1 ≠ 'a' then throw (.panic "syntax")
      else if argc + 1 ≥ MAXARGS then throw (.panic "too many args")
      else
        let ret ← parseredirs fuel (ret.addArg tok.2)
        parseargs fuel ret (argc + 1)

/-- The loop of `parseline`. -/
def parsebacks : Nat → Cmd Word → Parser (Cmd Word)
  | 0, _ => throw .fuel
  | fuel + 1, cmd => do
    if ← peek ['&'] then
      let _ ← gettoken
      parsebacks fuel (.back cmd)
    else return cmd

mutual

def parseline : Nat → Parser (Cmd Word)
  | 0 => throw .fuel
  | fuel + 1 => do
    let cmd ← parsepipe fuel
    let cmd ← parsebacks fuel cmd
    if ← peek [';'] then
      let _ ← gettoken
      let right ← parseline fuel
      return .list cmd right
    else return cmd

def parsepipe : Nat → Parser (Cmd Word)
  | 0 => throw .fuel
  | fuel + 1 => do
    let cmd ← parseexec fuel
    if ← peek ['|'] then
      let _ ← gettoken
      let right ← parsepipe fuel
      return .pipe cmd right
    else return cmd

def parseexec : Nat → Parser (Cmd Word)
  | 0 => throw .fuel
  | fuel + 1 => do
    if ← peek ['('] then parseblock fuel
    else
      let ret ← parseredirs fuel (.exec [])
      parseargs fuel ret 0

def parseblock : Nat → Parser (Cmd Word)
  | 0 => throw .fuel
  | fuel + 1 => do
    if !(← peek ['(']) then throw (.panic "parseblock")
    else
      let _ ← gettoken
      let cmd ← parseline fuel
      if !(← peek [')']) then throw (.panic "syntax - missing )")
      else
        let _ ← gettoken
        parseredirs fuel cmd

end

/-! ## The strings of a command -/

/-- `*p = 0;`, in the buffer `buf`. At the end of the line there is a NUL already. -/
def terminate (p buf : Str) : Str := buf.set (buf.length - p.length) NUL

/-- The string at `p`, in the buffer `buf`. -/
def strAt (buf p : Str) : Str := (buf.drop (buf.length - p.length)).takeWhile (· != NUL)

/-- NUL-terminate all the counted strings. -/
def nulterminate : Cmd Word → Str → Str
  | .exec argv, buf => argv.foldl (fun buf w => terminate w.eq buf) buf
  | .redir cmd file _ _, buf => terminate file.eq (nulterminate cmd buf)
  | .pipe left right, buf => nulterminate right (nulterminate left buf)
  | .list left right, buf => nulterminate right (nulterminate left buf)
  | .back cmd, buf => nulterminate cmd buf

/-- The same command over other strings. -/
def Cmd.map {ω ω' : Type} (f : ω → ω') : Cmd ω → Cmd ω'
  | .exec argv => .exec (argv.map f)
  | .redir cmd file mode fd => .redir (cmd.map f) (f file) mode fd
  | .pipe left right => .pipe (left.map f) (right.map f)
  | .list left right => .list (left.map f) (right.map f)
  | .back cmd => .back (cmd.map f)

/-- The line at `buf`, up to the first NUL. -/
def lineAt (buf : Str) : Str := buf.takeWhile (· != NUL)

/-- The line is read, and nothing of it is left over. -/
def parsewhole (fuel : Nat) : Parser (Cmd Word) := do
  let cmd ← parseline fuel
  let _ ← peek []
  if (← get) ≠ [] then throw (.panic "syntax")
  else return cmd

/-- `parsecmd(buf)`: the command, with the strings that its pointers lead to when it returns. -/
def parsecmd (buf : Str) : Except Stop (Cmd Str) :=
  match parsewhole (4 * (lineAt buf).length + 4) (lineAt buf) with
  | .error e => .error e
  | .ok (cmd, _) => .ok (cmd.map fun w => strAt (nulterminate cmd (lineAt buf)) w.q)

end Xv6.Shell
