import ProxyBroker.Text.Digits

-- A JSON document. A number is an integer divided by a power of ten.
inductive Json
  | null
  | bool (b : Bool)
  | num (m : Int) (scale : Nat)
  | str (s : Str)
  | arr (vs : List Json)
  | obj (fs : List (Str × Json))

namespace Json

section Print

-- The characters that are escaped by a letter or by themselves.
def escapes : List (Char × Char) :=
  [('"', '"'), ('\\', '\\'), ('\x08', 'b'), ('\x0C', 'f'), ('\n', 'n'), ('\r', 'r'), ('\t', 't')]

def isControl (c : Char) : Bool :=
  c.toNat < 0x20

def escape (c : Char) : Str :=
  match escapes.lookup c with
  | some e => ['\\', e]
  | none   =>
    if isControl c then "\\u00".toList ++ [(c.toNat / 16).digitChar, (c.toNat % 16).digitChar] else [c]

def printStr (s : Str) : Str :=
  '"' :: s.flatMap escape ++ ['"']

-- The last `scale` digits are those after the decimal point.
def printNat (n : Nat) : Nat → Str
  | 0     => Str.ofNat n
  | scale => Str.ofNat (n / 10 ^ scale) ++ '.' :: (Str.ofNat (n % 10 ^ scale)).leftpad scale '0'

def printNum (m : Int) (scale : Nat) : Str :=
  if m < 0 then '-' :: printNat m.natAbs scale else printNat m.natAbs scale

mutual

def print : Json → Str
  | null               => "null".toList
  | bool true          => "true".toList
  | bool false         => "false".toList
  | num m scale        => printNum m scale
  | str s              => printStr s
  | arr []             => "[]".toList
  | arr (v :: vs)      => '[' :: print v ++ printItems vs
  | obj []             => "\x7b\x7d".toList
  | obj ((n, v) :: fs) => '\x7b' :: printStr n ++ ':' :: print v ++ printFields fs

-- The remaining items of an array.
def printItems : List Json → Str
  | []      => [']']
  | v :: vs => ',' :: print v ++ printItems vs

-- The remaining fields of an object.
def printFields : List (Str × Json) → Str
  | []           => ['\x7d']
  | (n, v) :: fs => ',' :: printStr n ++ ':' :: print v ++ printFields fs

end

end Print

section Read

def hexDigit? (c : Char) : Option Nat :=
  (List.range 16).find? (·.digitChar = c.toLower)

def unescape (e : Char) : Option Char :=
  if e = '/' then some '/' else (escapes.find? (·.2 = e)).map Prod.fst

-- A character beyond the basic plane, which is escaped by a pair of surrogates, is not read.
def readHex (ds : Str) : Option Char := do
  let ns ← ds.mapM hexDigit?
  let n := ns.foldl (16 * · + ·) 0
  if n.isValidChar then some (Char.ofNat n) else none

-- What follows the quotation mark at the start of a string.
def readChars : Str → Option (Str × Str)
  | []                                  => none
  | '"' :: s                            => some ([], s)
  | '\\' :: 'u' :: a :: b :: c :: d :: s => do
    let x ← readHex [a, b, c, d]
    let (xs, s) ← readChars s
    some (x :: xs, s)
  | '\\' :: e :: s                      => do
    let x ← unescape e
    let (xs, s) ← readChars s
    some (x :: xs, s)
  | c :: s                              =>
    if isControl c then none
    else (readChars s).map fun (xs, s) => (c :: xs, s)

def readStr : Str → Option (Str × Str)
  | '"' :: s => readChars s
  | _        => none

def digitsValue (ds : Str) : Nat :=
  Nat.ofDigitsWith 10 (fun c => (Str.digit? c).getD 0) ds

-- Exponents are not read.
def readNat (s : Str) : Option ((Nat × Nat) × Str) :=
  let ds := s.takeWhile Char.isDigit
  if ds = [] then none
  else match s.drop ds.length with
    | '.' :: s =>
      let fs := s.takeWhile Char.isDigit
      if fs = [] then none
      else some ((digitsValue ds * 10 ^ fs.length + digitsValue fs, fs.length), s.drop fs.length)
    | s => some ((digitsValue ds, 0), s)

def readNum : Str → Option (Json × Str)
  | '-' :: s => (readNat s).map fun ((n, scale), s) => (num (-n) scale, s)
  | s        => (readNat s).map fun ((n, scale), s) => (num n scale, s)

def readChar (c : Char) : Str → Option Str
  | []     => none
  | d :: s => if d = c then some s else none

mutual

-- Documents without blanks in between their tokens. The length of the text is enough fuel.
def read : Nat → Str → Option (Json × Str)
  | 0, _              => none
  | _ + 1, 'n' :: s     => (Str.stripPrefix "ull".toList s).map (null, ·)
  | _ + 1, 't' :: s     => (Str.stripPrefix "rue".toList s).map (bool true, ·)
  | _ + 1, 'f' :: s     => (Str.stripPrefix "alse".toList s).map (bool false, ·)
  | _ + 1, '"' :: s     => (readChars s).map fun (x, s) => (str x, s)
  | _ + 1, '[' :: ']' :: s => some (arr [], s)
  | n + 1, '[' :: s     => do
    let (v, s) ← read n s
    let (vs, s) ← readItems n s
    some (arr (v :: vs), s)
  | _ + 1, '\x7b' :: '\x7d' :: s => some (obj [], s)
  | n + 1, '\x7b' :: s  => do
    let (x, s) ← readStr s
    let s ← readChar ':' s
    let (v, s) ← read n s
    let (fs, s) ← readFields n s
    some (obj ((x, v) :: fs), s)
  | _ + 1, s            => readNum s

def readItems : Nat → Str → Option (List Json × Str)
  | _ + 1, ']' :: s => some ([], s)
  | n + 1, ',' :: s => do
    let (v, s) ← read n s
    let (vs, s) ← readItems n s
    some (v :: vs, s)
  | _, _            => none

def readFields : Nat → Str → Option (List (Str × Json) × Str)
  | _ + 1, '\x7d' :: s => some ([], s)
  | n + 1, ',' :: s    => do
    let (x, s) ← readStr s
    let s ← readChar ':' s
    let (v, s) ← read n s
    let (fs, s) ← readFields n s
    some ((x, v) :: fs, s)
  | _, _               => none

end

-- Nothing may be left over.
def parse (s : Str) : Option Json :=
  match read s.length s with
  | some (v, []) => some v
  | _            => none

end Read

end Json
