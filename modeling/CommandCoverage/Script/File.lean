import CommandCoverage.Script.Program
import CommandCoverage.Path

namespace CommandCoverage.Script

def dialects : List (String × Dialect) :=
  [(".ts", .typescript), (".mts", .typescript), (".cts", .typescript), (".tsx", .tsx)]

def Dialect.ofPath (path : String) : Dialect :=
  (dialects.lookup (Path.suffix path).toLower).getD .javascript

def Dialect.label : Dialect → String
  | .javascript => "javascript"
  | .typescript => "typescript"
  | .tsx => "tsx"

def withoutInterpreter : List Char → List Char
  | '#' :: '!' :: r => r.dropWhile (· != '\n')
  | cs => cs

def parseFile (path content : String) : Option Node :=
  parse (Dialect.ofPath path) (withoutInterpreter content.toList)

end CommandCoverage.Script
