import MiniC.Core.Build

/-!
# Modules

A module is a class for the assembler: a fixed part that starts the program and implements the
built-in functions, and a method for each function of the program.
-/

namespace MiniC.Jvm

/-- The lines of the fixed part of the class `c`. -/
def supportLines (c : String) : List String := [
  ".class public " ++ c,
  ".super java/lang/Object",
  "",
  ".field private static scanner Ljava/util/Scanner;",
  "",
  ".method public <init>()V",
  "    .limit locals 1",
  "    .limit stack 1",
  "    aload_0",
  "    invokespecial java/lang/Object/<init>()V",
  "    return",
  ".end method",
  "",
  ".method static <clinit>()V",
  "    .limit locals 0",
  "    .limit stack 3",
  "    new java/util/Scanner",
  "    dup",
  "    getstatic java/lang/System/in Ljava/io/InputStream;",
  "    invokespecial java/util/Scanner/<init>(Ljava/io/InputStream;)V",
  "    putstatic " ++ c ++ "/scanner Ljava/util/Scanner;",
  "    return",
  ".end method",
  "",
  ".method public static main([Ljava/lang/String;)V",
  "    .limit locals 1",
  "    .limit stack 0",
  "    invokestatic " ++ c ++ "/main()V",
  "    return",
  ".end method",
  "",
  ".method public static printInt(I)V",
  "    .limit locals 1",
  "    .limit stack 2",
  "    getstatic java/lang/System/out Ljava/io/PrintStream;",
  "    iload_0",
  "    invokevirtual java/io/PrintStream/println(I)V",
  "    return",
  ".end method",
  "",
  ".method public static printDouble(D)V",
  "    .limit locals 2",
  "    .limit stack 3",
  "    getstatic java/lang/System/out Ljava/io/PrintStream;",
  "    dload_0",
  "    invokevirtual java/io/PrintStream/println(D)V",
  "    return",
  ".end method",
  "",
  ".method public static printString(Ljava/lang/String;)V",
  "    .limit locals 1",
  "    .limit stack 2",
  "    getstatic java/lang/System/out Ljava/io/PrintStream;",
  "    aload_0",
  "    invokevirtual java/io/PrintStream/println(Ljava/lang/String;)V",
  "    return",
  ".end method",
  "",
  ".method public static readInt()I",
  "    .limit locals 0",
  "    .limit stack 1",
  "    getstatic " ++ c ++ "/scanner Ljava/util/Scanner;",
  "    invokevirtual java/util/Scanner/nextInt()I",
  "    ireturn",
  ".end method",
  "",
  ".method public static readDouble()D",
  "    .limit locals 0",
  "    .limit stack 2",
  "    getstatic " ++ c ++ "/scanner Ljava/util/Scanner;",
  "    invokevirtual java/util/Scanner/nextDouble()D",
  "    dreturn",
  ".end method",
  "",
  ".method public static readString()Ljava/lang/String;",
  "    .limit locals 0",
  "    .limit stack 1",
  "    getstatic " ++ c ++ "/scanner Ljava/util/Scanner;",
  "    invokevirtual java/util/Scanner/next()Ljava/lang/String;",
  "    areturn",
  ".end method",
  ""]

/-- The fixed part of the class `c`. -/
def support (c : String) : String := String.join ((supportLines c).map (· ++ "\n"))

/-- A class and the methods of its program. -/
structure Module where
  className : String
  methods : List Method
deriving Repr, DecidableEq

namespace Module

/-- The methods as the assembler reads them, an empty line before each. -/
def code (m : Module) : String := String.join (m.methods.map fun f => "\n" ++ f.text)

/-- The module as the assembler reads it. -/
def text (m : Module) : String := support m.className ++ m.code

end Module

/-- The methods of functions, in order. -/
def methods (calls : CallTable) : List Core.Function → Except Fault (List Method)
  | [] => return []
  | f :: fs => do
    let m ← f.method calls
    return m :: (← methods calls fs)

/-- The module of a program. -/
def generate (className : String) (p : Core.Program) : Except Fault Module := do
  let calls ← callTable className p
  return ⟨className, ← methods calls p⟩

end MiniC.Jvm
