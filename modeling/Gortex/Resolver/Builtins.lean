import Gortex.Lib.GoPath

/-!
# Built-in methods

The tables of `internal/resolver/builtins.go`, by which a method call that no
definition of the graph answers is labelled as a call of a built-in method. The
value is the category the label shows.
-/

namespace Gortex

/-- The built-in methods of JavaScript and TypeScript. -/
def jsBuiltins : List (String × String) :=
  [("push", "array"), ("pop", "array"), ("shift", "array"), ("unshift", "array"),
    ("splice", "array"), ("reverse", "array"), ("sort", "array"), ("map", "array"),
    ("filter", "array"), ("reduce", "array"), ("reduceRight", "array"), ("forEach", "array"),
    ("findIndex", "array"), ("some", "array"), ("every", "array"), ("flat", "array"),
    ("flatMap", "array"), ("fill", "array"), ("copyWithin", "array"), ("concat", "array/string"),
    ("slice", "array/string"), ("includes", "array/string"), ("indexOf", "array/string"),
    ("lastIndexOf", "array/string"), ("find", "array/string"), ("from", "array.static"),
    ("isArray", "array.static"), ("of", "array.static"), ("charAt", "string"),
    ("charCodeAt", "string"), ("codePointAt", "string"), ("startsWith", "string"),
    ("endsWith", "string"), ("match", "string"), ("matchAll", "string"), ("normalize", "string"),
    ("padStart", "string"), ("padEnd", "string"), ("repeat", "string"), ("replace", "string"),
    ("replaceAll", "string"), ("search", "string"), ("split", "string"), ("substring", "string"),
    ("substr", "string"), ("toLowerCase", "string"), ("toUpperCase", "string"),
    ("trim", "string"), ("trimStart", "string"), ("trimEnd", "string"),
    ("localeCompare", "string"), ("at", "string"), ("fromCharCode", "string.static"),
    ("fromCodePoint", "string.static"), ("toFixed", "number"), ("toPrecision", "number"),
    ("toExponential", "number"), ("parseFloat", "number.static"), ("parseInt", "number.static"),
    ("isNaN", "number.static"), ("isFinite", "number.static"), ("isInteger", "number.static"),
    ("parse", "json"), ("stringify", "json"), ("assign", "object"), ("freeze", "object"),
    ("create", "object"), ("getPrototypeOf", "object"), ("setPrototypeOf", "object"),
    ("defineProperty", "object"), ("defineProperties", "object"), ("set", "map"), ("get", "map"),
    ("has", "map/set"), ("delete", "map/set"), ("clear", "map/set"), ("size", "map/set"),
    ("add", "set"), ("keys", "array/map/object"), ("values", "array/map/object"),
    ("entries", "array/map/object"), ("then", "promise"), ("catch", "promise"),
    ("finally", "promise"), ("resolve", "promise.static"), ("reject", "promise.static"),
    ("all", "promise.static"), ("allSettled", "promise.static"), ("race", "promise.static"),
    ("any", "promise.static"), ("querySelector", "dom"), ("querySelectorAll", "dom"),
    ("getElementById", "dom"), ("getElementsByClassName", "dom"), ("getElementsByTagName", "dom"),
    ("getAttribute", "dom"), ("setAttribute", "dom"), ("removeAttribute", "dom"),
    ("hasAttribute", "dom"), ("appendChild", "dom"), ("removeChild", "dom"),
    ("insertBefore", "dom"), ("replaceChild", "dom"), ("cloneNode", "dom"),
    ("addEventListener", "dom"), ("removeEventListener", "dom"), ("dispatchEvent", "dom"),
    ("click", "dom"), ("focus", "dom"), ("blur", "dom"), ("createElement", "dom"),
    ("createTextNode", "dom"), ("createDocumentFragment", "dom"),
    ("parseFromString", "dom.DOMParser"), ("contains", "dom/array/string"), ("log", "console"),
    ("warn", "console"), ("error", "console"), ("debug", "console"), ("info", "console")]

/-- The built-in methods of Python. -/
def pyBuiltins : List (String × String) :=
  [("startswith", "str"), ("endswith", "str"), ("rfind", "str"), ("upper", "str"),
    ("lower", "str"), ("capitalize", "str"), ("title", "str"), ("strip", "str"),
    ("lstrip", "str"), ("rstrip", "str"), ("format", "str"), ("append", "list"),
    ("extend", "list"), ("insert", "list"), ("setdefault", "dict"), ("update", "dict"),
    ("discard", "set"), ("union", "set"), ("intersection", "set"), ("difference", "set"),
    ("symmetric_difference", "set"), ("split", "str"), ("rsplit", "str"), ("join", "str"),
    ("replace", "str"), ("remove", "list/set"), ("pop", "list/dict/set"), ("index", "list/str"),
    ("count", "list/str"), ("sort", "list"), ("reverse", "list"), ("get", "dict"),
    ("keys", "dict"), ("values", "dict"), ("items", "dict"), ("add", "set"), ("has", "set"),
    ("find", "str")]

/-- The category of a built-in method in a family of languages. -/
def classifyBuiltin (method lang : String) : Option String :=
  if lang = "js" ∨ lang = "ts" then jsBuiltins.lookup method
  else if lang = "py" then pyBuiltins.lookup method
  else none

/-- The family of languages of a file, empty if it is not one with a table. -/
def langFromFilePath (p : String) : String :=
  if GoPath.ext p ∈ [".js", ".jsx", ".mjs", ".cjs"] then "js"
  else if GoPath.ext p ∈ [".ts", ".tsx"] then "ts"
  else if GoPath.ext p = ".py" then "py"
  else ""

end Gortex
