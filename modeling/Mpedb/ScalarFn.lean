import Mpedb.Value

/-!
# The scalar functions

Their tags in a stored program, the numbers of arguments they take and their names. What they
compute is not modelled.
-/

namespace Mpedb.Expr

/-- The scalar functions. -/
inductive ScalarFn
  | lower | upper | length | trim | abs | round | substr | replace | ltrim | rtrim | instr | sqrt
  | pow | sign | ceil | floor | char | unicode | hex | typeof | exp | ln | log10 | log2 | logBase
  | sin | cos | tan | asin | acos | atan | atan2 | sinh | cosh | tanh | radians | degrees | pi
  | mod | trunc | printf | quote | strftime | json | jsonValid | jsonType | jsonQuote
  | jsonArrayLength | jsonExtract | jsonArrow | jsonArrowText | jsonArray | jsonObject | jsonPatch
  | jsonRemove | jsonReplace | jsonSet | jsonInsert | max2 | min2 | date | time | dateTime
  | julianDay | vecL2 | vecCosine | splice | jsonQuoteExtract | sqrtStrict | lnStrict | log10Strict
  | log2Strict | logBaseStrict | formatType | subscripts | pgExtract | pgTemporalText
  deriving DecidableEq

namespace ScalarFn

/-- The byte of a function in a program. -/
def tag : ScalarFn → UInt8
  | .lower => 1
  | .upper => 2
  | .length => 3
  | .trim => 4
  | .abs => 5
  | .round => 6
  | .substr => 7
  | .replace => 8
  | .ltrim => 9
  | .rtrim => 10
  | .instr => 11
  | .sqrt => 12
  | .pow => 13
  | .sign => 14
  | .ceil => 15
  | .floor => 16
  | .char => 17
  | .unicode => 18
  | .hex => 19
  | .typeof => 20
  | .exp => 21
  | .ln => 22
  | .log10 => 23
  | .log2 => 24
  | .logBase => 25
  | .sin => 26
  | .cos => 27
  | .tan => 28
  | .asin => 29
  | .acos => 30
  | .atan => 31
  | .atan2 => 32
  | .sinh => 33
  | .cosh => 34
  | .tanh => 35
  | .radians => 36
  | .degrees => 37
  | .pi => 38
  | .mod => 39
  | .trunc => 40
  | .printf => 41
  | .quote => 42
  | .strftime => 43
  | .json => 44
  | .jsonValid => 45
  | .jsonType => 46
  | .jsonQuote => 47
  | .jsonArrayLength => 48
  | .jsonExtract => 49
  | .jsonArrow => 50
  | .jsonArrowText => 51
  | .jsonArray => 52
  | .jsonObject => 53
  | .jsonPatch => 54
  | .jsonRemove => 55
  | .jsonReplace => 56
  | .jsonSet => 57
  | .jsonInsert => 58
  | .max2 => 60
  | .min2 => 61
  | .date => 62
  | .time => 63
  | .dateTime => 64
  | .julianDay => 65
  | .vecL2 => 66
  | .vecCosine => 67
  | .splice => 68
  | .jsonQuoteExtract => 69
  | .sqrtStrict => 70
  | .lnStrict => 71
  | .log10Strict => 72
  | .log2Strict => 73
  | .logBaseStrict => 74
  | .formatType => 75
  | .subscripts => 76
  | .pgExtract => 77
  | .pgTemporalText => 78

/-- `from_tag`. -/
def fromTag (t : UInt8) : Except Error ScalarFn :=
  match t.toNat with
  | 1 => .ok .lower
  | 2 => .ok .upper
  | 3 => .ok .length
  | 4 => .ok .trim
  | 5 => .ok .abs
  | 6 => .ok .round
  | 7 => .ok .substr
  | 8 => .ok .replace
  | 9 => .ok .ltrim
  | 10 => .ok .rtrim
  | 11 => .ok .instr
  | 12 => .ok .sqrt
  | 13 => .ok .pow
  | 14 => .ok .sign
  | 15 => .ok .ceil
  | 16 => .ok .floor
  | 17 => .ok .char
  | 18 => .ok .unicode
  | 19 => .ok .hex
  | 20 => .ok .typeof
  | 21 => .ok .exp
  | 22 => .ok .ln
  | 23 => .ok .log10
  | 24 => .ok .log2
  | 25 => .ok .logBase
  | 26 => .ok .sin
  | 27 => .ok .cos
  | 28 => .ok .tan
  | 29 => .ok .asin
  | 30 => .ok .acos
  | 31 => .ok .atan
  | 32 => .ok .atan2
  | 33 => .ok .sinh
  | 34 => .ok .cosh
  | 35 => .ok .tanh
  | 36 => .ok .radians
  | 37 => .ok .degrees
  | 38 => .ok .pi
  | 39 => .ok .mod
  | 40 => .ok .trunc
  | 41 => .ok .printf
  | 42 => .ok .quote
  | 43 => .ok .strftime
  | 44 => .ok .json
  | 45 => .ok .jsonValid
  | 46 => .ok .jsonType
  | 47 => .ok .jsonQuote
  | 48 => .ok .jsonArrayLength
  | 49 => .ok .jsonExtract
  | 50 => .ok .jsonArrow
  | 51 => .ok .jsonArrowText
  | 52 => .ok .jsonArray
  | 53 => .ok .jsonObject
  | 54 => .ok .jsonPatch
  | 55 => .ok .jsonRemove
  | 56 => .ok .jsonReplace
  | 57 => .ok .jsonSet
  | 58 => .ok .jsonInsert
  | 60 => .ok .max2
  | 61 => .ok .min2
  | 62 => .ok .date
  | 63 => .ok .time
  | 64 => .ok .dateTime
  | 65 => .ok .julianDay
  | 66 => .ok .vecL2
  | 67 => .ok .vecCosine
  | 68 => .ok .splice
  | 69 => .ok .jsonQuoteExtract
  | 70 => .ok .sqrtStrict
  | 71 => .ok .lnStrict
  | 72 => .ok .log10Strict
  | 73 => .ok .log2Strict
  | 74 => .ok .logBaseStrict
  | 75 => .ok .formatType
  | 76 => .ok .subscripts
  | 77 => .ok .pgExtract
  | 78 => .ok .pgTemporalText
  | other => .error (.corrupt s!"unknown scalar function {other}")

/-- `arity_ok`: the number of arguments that a function takes. -/
def arityOk (f : ScalarFn) (argc : ℕ) : Bool :=
  match f with
  | .lower | .upper | .length | .abs | .unicode | .hex | .typeof | .quote => argc = 1
  | .strftime => argc ≥ 2
  | .date | .time | .dateTime | .julianDay => argc ≥ 1
  | .round | .trim | .ltrim | .rtrim => argc = 1 ∨ argc = 2
  | .sqrt | .sign | .ceil | .floor => argc = 1
  | .sqrtStrict | .lnStrict | .log10Strict | .log2Strict => argc = 1
  | .logBaseStrict => argc = 2
  | .formatType => argc = 1 ∨ argc = 2
  | .pgExtract => argc = 2
  | .pgTemporalText => argc = 2
  | .subscripts => argc = 1
  | .substr => argc = 2 ∨ argc = 3
  | .instr | .pow | .vecL2 | .vecCosine => argc = 2
  | .replace => argc = 3
  | .splice => argc = 4
  | .jsonQuoteExtract => argc ≥ 2
  | .char => true
  | .printf => argc ≥ 1
  | .exp | .ln | .log10 | .log2 | .sin | .cos | .tan | .asin | .acos | .atan | .sinh | .cosh
  | .tanh | .radians | .degrees | .trunc => argc = 1
  | .logBase | .atan2 | .mod => argc = 2
  | .pi => argc = 0
  | .json | .jsonQuote => argc = 1
  | .jsonValid | .jsonType | .jsonArrayLength => argc = 1 ∨ argc = 2
  | .jsonExtract => argc ≥ 2
  | .jsonRemove => argc ≥ 1
  | .jsonArrow | .jsonArrowText | .jsonPatch => argc = 2
  | .jsonArray | .jsonObject => argc ≥ 1
  | .jsonReplace | .jsonSet | .jsonInsert => argc ≥ 2
  | .max2 | .min2 => argc ≥ 2

/-- The name of a function. -/
def name : ScalarFn → String
  | .lower => "lower"
  | .upper => "upper"
  | .length => "length"
  | .trim => "trim"
  | .abs => "abs"
  | .round => "round"
  | .substr => "substr"
  | .replace => "replace"
  | .ltrim => "ltrim"
  | .rtrim => "rtrim"
  | .instr => "instr"
  | .sqrt => "sqrt"
  | .pow => "pow"
  | .sign => "sign"
  | .ceil => "ceil"
  | .floor => "floor"
  | .char => "char"
  | .unicode => "unicode"
  | .hex => "hex"
  | .typeof => "typeof"
  | .exp => "exp"
  | .ln => "ln"
  | .log10 => "log10"
  | .log2 => "log2"
  | .logBase => "log"
  | .sin => "sin"
  | .cos => "cos"
  | .tan => "tan"
  | .asin => "asin"
  | .acos => "acos"
  | .atan => "atan"
  | .atan2 => "atan2"
  | .sinh => "sinh"
  | .cosh => "cosh"
  | .tanh => "tanh"
  | .radians => "radians"
  | .degrees => "degrees"
  | .pi => "pi"
  | .mod => "mod"
  | .trunc => "trunc"
  | .printf => "printf"
  | .quote => "quote"
  | .strftime => "strftime"
  | .json => "json"
  | .jsonValid => "json_valid"
  | .jsonType => "json_type"
  | .jsonQuote => "json_quote"
  | .jsonArrayLength => "json_array_length"
  | .jsonExtract => "json_extract"
  | .jsonArrow => "->"
  | .jsonArrowText => "->>"
  | .jsonArray => "json_array"
  | .jsonObject => "json_object"
  | .jsonPatch => "json_patch"
  | .jsonRemove => "json_remove"
  | .jsonReplace => "json_replace"
  | .jsonSet => "json_set"
  | .jsonInsert => "json_insert"
  | .max2 => "max"
  | .min2 => "min"
  | .date => "date"
  | .time => "time"
  | .dateTime => "datetime"
  | .julianDay => "julianday"
  | .vecL2 => "vec_l2"
  | .vecCosine => "vec_cosine"
  | .splice => "splice"
  | .jsonQuoteExtract => "json_quote"
  | .sqrtStrict => "sqrt"
  | .lnStrict => "ln"
  | .log10Strict => "log10"
  | .log2Strict => "log2"
  | .logBaseStrict => "log"
  | .formatType => "format_type"
  | .subscripts => "generate_subscripts"
  | .pgExtract => "extract"
  | .pgTemporalText => "temporal_text"

end ScalarFn

end Mpedb.Expr
