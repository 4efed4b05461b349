import Concatenative.Dictionary

/-!
The library: words defined in the language itself, and the dictionary that every
session starts with.
-/

namespace Concatenative.Library

def aliases : List (String × String) := [("!", "def")]

def stackWords : List (String × String) :=
  [("dup", "[ $1 $1 ]"),
    ("over", "[ $2 $1 $2 ]"),
    ("swap", "[ $1 $2 ]"),
    ("drop", "[ [ @ ] $1 def ]"),
    ("debug.clear", "[ main debug.size debug.remove ]")]

def logicWords : List (String × String) :=
  [("t", "-1"),
    ("f", "0"),
    ("<", "[ $1 $2 > ]"),
    (">=", "[ $2 $1 > t [ $2 $1 = ] if ]"),
    ("<=", "[ $1 $2 > t [ $2 $1 = ] if ]"),
    ("=", "[ $2 $1 > not $1 $2 > not and ]"),
    ("!=", "[ = not ]"),
    ("not", "[ $1 f t if ]"),
    ("and", "[ $1 $2 f if ]"),
    ("or", "[ $1 t $2 if ]"),
    ("xor", "[ $1 $2 or $1 $2 nand and ]"),
    ("nand", "[ and not ]"),
    ("nor", "[ or not ]"),
    ("xnor", "[ xor not ]")]

def mathWords : List (String × String) :=
  [("%", "mod"),
    ("math.mod", "mod"),
    ("math.pow", "[ $2 $2 [ over * ] $1 1 - rep swap drop ]"),
    ("^", "math.pow"),
    ("pow", "math.pow"),
    ("math.max", "[ $2 $1 > $2 $1 if ]"),
    ("math.min", "[ $2 $1 > $1 $2 if ]"),
    ("max", "math.max"),
    ("min", "math.min")]

def definitions : List (Text × Text) :=
  (aliases ++ stackWords ++ logicWords ++ mathWords).map fun (name, body) =>
    (name.toList, body.toList)

def dictionary : Dictionary :=
  Dictionary.natives.defineAll definitions

end Concatenative.Library
