import Xeros.Model.Kernel
/-!
# `doprnt.c`, `sprintf.c` and `atoi.c`

The formatted output behind `kprintf`. A string is the list of its bytes up to
the `'\0'`, `args` are the words from the argument pointer on, and `string` is
the local array of that name: nothing initializes it, and a format character
that is not known prints what is in it. A read behind the arguments and a
conversion that does not fit into `string` give `none`. An `int` is as long as
a `long`, so that the conversions of `unsigned int` are never called.
-/

namespace Xeros

def MAXSTR : Word := 80

/-- `sizeof(string)`. -/
def STRING_SIZE : Nat := 20

/-- An `int` counts no longer string. -/
def STR_FUEL : Nat := 2 ^ 31

def ascii (c : Char) : Byte := BitVec.ofNat 8 c.toNat

/-! ## Conversions -/

/-- The loop that fills `temp[1]`, `temp[2]`, ... -/
def prt_temp (digit : Word → Byte) (shift : Word → Word) : Nat → Word → List Byte
  | 0, _ => []
  | n + 1, num => digit num :: prt_temp digit shift n (shift num)

/-- `for(i = n; temp[i] == '0'; i--)`, but never below 1, and what is left
goes out backwards. -/
def prt_out (temp : List Byte) : List Byte :=
  let digits := temp.reverse.dropWhile fun c => c = ascii '0'
  if digits.isEmpty then temp.take 1 else digits

def prtl10 (num : Word) : List Byte :=
  prt_out (prt_temp (fun num => (num.srem 10 + 48).setWidth 8) (fun num => num.sdiv 10) 10 num)

def prtl8 (num : Word) : List Byte :=
  prt_out ((prt_temp (fun num => ((num &&& 7) + 48).setWidth 8) (fun num => num.sshiftRight 3) 11 num).modify 10
    fun c => c &&& ascii '3')

/-- `"0123456789abcdef"`. -/
def hex_digits : List Byte :=
  [ascii '0', ascii '1', ascii '2', ascii '3', ascii '4', ascii '5', ascii '6', ascii '7', ascii '8', ascii '9',
    ascii 'a', ascii 'b', ascii 'c', ascii 'd', ascii 'e', ascii 'f']

def prtl16 (num : Word) : List Byte :=
  prt_out (prt_temp (fun num => hex_digits.getD (num &&& 0xF).toNat 0) (fun num => num.sshiftRight 4) 8 num)

def prtl2 (num : Word) : List Byte :=
  prt_out (prt_temp (fun num => if num.srem 2 = 0 then ascii '0' else ascii '1') (fun num => num.sshiftRight 1) 32 num)

/-- `while (*args < 0) { *args -= 1000000000; ++digit1; }`. -/
def digit1_loop : Nat → Word → Byte → Option (Word × Byte)
  | 0, _, _ => none
  | fuel + 1, num, digit1 =>
    if num.toInt < 0 then digit1_loop fuel (num - 1000000000) (digit1 + 1) else some (num, digit1)

/-- Each turn takes more than one off 2^32. -/
def DIGIT1_FUEL : Nat := 2 ^ 32

/-- `case 'u'`. -/
def unsigned (num : Word) : Option (List Byte) := do
  let (num, digit1) ← digit1_loop DIGIT1_FUEL num 0
  some ((prtl10 num).modifyHead fun c => c + digit1)

/-! ## Strings -/

/-- The string at an address. -/
def cstring (m : Mem) : Nat → Word → Option (List Byte)
  | 0, _ => none
  | fuel + 1, a =>
    if m a = 0 then some []
    else do
      let rest ← cstring m fuel (a + 1)
      some (m a :: rest)

/-- The conversion and a `'\0'` are written over the start of `string`. -/
def put_string (string digits : List Byte) : Option (List Byte) :=
  if digits.length + 1 ≤ STRING_SIZE then some (digits ++ 0 :: string.drop (digits.length + 1)) else none

/-- What `string` is when it is read as a string. -/
def read_string (string : List Byte) : Option (List Byte) :=
  if 0 ∈ string then some (string.takeWhile fun c => c ≠ 0) else none

/-! ## The format -/

/-- `*fmt == c`, and then `fmt++`. -/
def scan_flag (c : Byte) : List Byte → Bool × List Byte
  | [] => (false, [])
  | d :: fmt => if d = c then (true, fmt) else (false, d :: fmt)

/-- `while( '0' <= *fmt && *fmt <= '9' ) n = n * 10 + *fmt++ - '0'`. -/
def scan_number : List Byte → Word → Word × List Byte
  | [], n => (n, [])
  | c :: fmt, n =>
    if ascii '0' ≤ c ∧ c ≤ ascii '9' then scan_number fmt (n * 10 + c.setWidth 32 - 48) else (n, c :: fmt)

/-- A number, or `*` for the next argument. -/
def scan_size (fmt : List Byte) (args : List Word) : Option (Word × List Byte × List Word) :=
  if (scan_flag (ascii '*') fmt).1 then
    match args with
    | [] => none
    | a :: args => some (a, (scan_flag (ascii '*') fmt).2, args)
  else some ((scan_number fmt 0).1, (scan_number fmt 0).2, args)

/-- What stands between the `%` and the format character. -/
structure Field where
  leftjust : Bool
  fill : Byte
  fmin : Word
  fmax : Word

def scan_field (fmt : List Byte) (args : List Word) : Option (Field × List Byte × List Word) := do
  let (leftjust, fmt) := scan_flag (ascii '-') fmt
  let (zero, fmt) := scan_flag (ascii '0') fmt
  let (fmin, fmt, args) ← scan_size fmt args
  let (dot, fmt) := scan_flag (ascii '.') fmt
  let (fmax, fmt, args) ← if dot then scan_size fmt args else some (0, fmt, args)
  let (_, fmt) := scan_flag (ascii 'l') fmt
  some ({ leftjust := leftjust, fill := if zero then ascii '0' else ascii ' ', fmin := fmin, fmax := fmax }, fmt, args)

/-- What the `switch` leaves: the byte it has put out, the array `string`, the
string to print, and `sign`, `fill` and `fmax`. -/
structure Converted where
  echo : List Byte
  string : List Byte
  str : List Byte
  sign : Bool
  fill : Byte
  fmax : Word

/-- The end of the cases that write digits to `string`. -/
def number (string : List Byte) (fld : Field) (sign : Bool) (digits : List Byte) : Option Converted := do
  let string ← put_string string digits
  let str ← read_string string
  some { echo := [], string := string, str := str, sign := sign, fill := fld.fill, fmax := 0 }

/-- `switch( f )`. -/
def convert (m : Mem) (string : List Byte) (args : List Word) (fld : Field) (f : Byte) : Option Converted :=
  if f = ascii 'c' then do
    let a ← args.head?
    let string := a.setWidth 8 :: 0 :: string.drop 2
    let str ← read_string string
    some { echo := [], string := string, str := str, sign := false, fill := ascii ' ', fmax := 0 }
  else if f = ascii 's' then do
    let a ← args.head?
    let str ← cstring m STR_FUEL a
    some { echo := [], string := string, str := str, sign := false, fill := ascii ' ', fmax := fld.fmax }
  else if f = ascii 'd' ∨ f = ascii 'D' then do
    let a ← args.head?
    let digits ← unsigned (if a.toInt < 0 then -a else a)
    number string fld (decide (a.toInt < 0)) digits
  else if f = ascii 'u' ∨ f = ascii 'U' then do
    let a ← args.head?
    let digits ← unsigned a
    number string fld false digits
  else if f = ascii 'o' ∨ f = ascii 'O' then do
    let a ← args.head?
    number string fld false (prtl8 a)
  else if f = ascii 'x' ∨ f = ascii 'X' then do
    let a ← args.head?
    number string fld false (prtl16 a)
  else if f = ascii 'b' ∨ f = ascii 'B' then do
    let a ← args.head?
    number string fld false (prtl2 a)
  else do
    let str ← read_string string
    some { echo := [f], string := string, str := str, sign := false, fill := fld.fill, fmax := fld.fmax }

/-- A width that is used as it is given. -/
def clip (w : Word) : Word := if MAXSTR.toInt < w.toInt ∨ w.toInt < 0 then 0 else w

/-- What follows the `switch`. -/
def put_field (leftjust : Bool) (fmin : Word) (c : Converted) : List Byte :=
  let fmin := clip fmin
  let fmax := clip c.fmax
  let length := if fmax ≠ 0 ∧ fmax.toNat < c.str.length then fmax.toNat else c.str.length
  let leading : Int :=
    if fmax ≠ 0 ∨ fmin ≠ 0 then
      (if fmin ≠ 0 then (fmin.toNat : Int) - length else 0) - (if c.sign then 1 else 0)
    else 0
  (if c.sign ∧ c.fill = ascii '0' then [ascii '-'] else []) ++
    (if leftjust then [] else List.replicate leading.toNat c.fill) ++
    (if c.sign ∧ c.fill = ascii ' ' then [ascii '-'] else []) ++
    c.str.take length ++
    (if leftjust then List.replicate leading.toNat c.fill else [])

/-- The bytes that are given to `func`, in order. -/
def doprnt (m : Mem) : Nat → List Byte → List Word → List Byte → Option (List Byte)
  | 0, _, _, _ => none
  | fuel + 1, fmt, args, string =>
    match fmt with
    | [] => some []
    | c :: fmt =>
      -- echo characters until '%' or end of fmt string, and "%%" as '%'
      if c ≠ ascii '%' then do
        let out ← doprnt m fuel fmt args string
        some (c :: out)
      else if (scan_flag (ascii '%') fmt).1 then do
        let out ← doprnt m fuel (scan_flag (ascii '%') fmt).2 args string
        some (ascii '%' :: out)
      else do
        let (fld, fmt, args) ← scan_field fmt args
        match fmt with
        | [] => some [ascii '%']
        | f :: fmt => do
          let c ← convert m string args fld f
          let out ← doprnt m fuel fmt (args.drop 1) c.string
          some (c.echo ++ put_field fld.leftjust fld.fmin c ++ out)

/-- Each turn of the loop takes a byte of the format. -/
def format (m : Mem) (fmt : List Byte) (args : List Word) (string : List Byte) : Option (List Byte) :=
  doprnt m (fmt.length + 1) fmt args string

/-! ## `sprintf` -/

/-- `*(*cpp)++ = c`, for one byte after the other. -/
def sprntf (m : Mem) (s : Word) : List Byte → Mem × Word
  | [] => (m, s)
  | c :: out => sprntf (m.store8 s c) (s + 1) out

/-- The bytes are stored when the last of them is known: the buffer at `str`
overlaps neither the format nor the strings among its arguments. -/
def sprintf (m : Mem) (str : Word) (fmt : List Byte) (args : List Word) (string : List Byte) : Option (Word × Mem) := do
  let out ← format m fmt args string
  let (m, s) := sprntf m str out
  some (str, m.store8 s 0)

/-! ## `atoi` -/

/-- The loop over blanks, and at most one sign. -/
def atoi_sign : List Byte → Bool × List Byte
  | [] => (false, [])
  | c :: p =>
    if c = ascii ' ' ∨ c = 0x09 then atoi_sign p
    else if c = ascii '-' then (true, p)
    else if c = ascii '+' then (false, p)
    else (false, c :: p)

/-- `while(*p >= '0' && *p <= '9') n = n*10 + *p++ - '0'` is the loop of `scan_number`. -/
def atoi (p : List Byte) : Word :=
  let (f, p) := atoi_sign p
  let n := (scan_number p 0).1
  if f then -n else n

end Xeros
