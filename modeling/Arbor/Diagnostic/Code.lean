/-
  Codes of conflicts and exceptions.

  A code is a letter and four digits.  The letter says whether the code can stop
  a program from running (`E`) or not (`W`); the first digit says who reports it:
  2 the analysis, 6 the running program.

  * `ErrorCode.all` lists the codes in order, `ErrorCode.summary` explains each;
  * `ErrorCode.ofText?` reads a code in either case, with blanks around it.
-/
import Arbor.Text.Blank

namespace Arbor

/-- The code of a conflict or an exception. -/
inductive ErrorCode where
  /-- Operator or callee is not a function. -/
  | e2001
  /-- More inputs than the function declares. -/
  | e2002
  /-- Required input not given. -/
  | e2003
  /-- Input of the wrong type. -/
  | e2004
  /-- Structure with abstract functions declares inputs. -/
  | e2005
  /-- Structure mixes abstract and implemented functions. -/
  | e2006
  /-- Interface function not implemented. -/
  | e2007
  /-- Implemented structure is not an interface. -/
  | e2008
  /-- Name does not resolve. -/
  | e2009
  /-- Borrowed name is not shared. -/
  | e2010
  /-- Two inputs with the same name. -/
  | e2011
  /-- Required input after an optional one. -/
  | e2012
  /-- Bound value does not match the declared type. -/
  | e2013
  /-- Condition is not boolean. -/
  | e2014
  /-- Abstract structure evaluated. -/
  | e2015
  /-- Type name does not resolve. -/
  | e2016
  /-- Unparsable input. -/
  | e2017
  /-- Mixed operators without grouping. -/
  | w2001
  /-- Repeated alias. -/
  | w2002
  /-- Aliases differing only by case. -/
  | w2003
  /-- No function for an operator or call. -/
  | e6001
  /-- Name has no value. -/
  | e6002
  /-- Unparsable node evaluated. -/
  | e6003
  /-- Stack size exceeded. -/
  | e6004
  /-- Value stack empty. -/
  | e6005
  /-- Division by zero. -/
  | e6006
  /-- Condition that is not boolean. -/
  | e6007
  /-- Input without a value. -/
  | e6008
  /-- Stream has no value yet. -/
  | e6009
  /-- Block without statements. -/
  | e6010
deriving DecidableEq, Repr

namespace ErrorCode

/-- All codes, in numeric order within each phase. -/
def all : List ErrorCode := [
  e2001, e2002, e2003, e2004, e2005, e2006, e2007, e2008, e2009, e2010, e2011, e2012, e2013,
  e2014, e2015, e2016, e2017, w2001, w2002, w2003, e6001, e6002, e6003, e6004, e6005, e6006,
  e6007, e6008, e6009, e6010]

/-- The text of a code. -/
def text : ErrorCode → String
  | e2001 => "E2001"
  | e2002 => "E2002"
  | e2003 => "E2003"
  | e2004 => "E2004"
  | e2005 => "E2005"
  | e2006 => "E2006"
  | e2007 => "E2007"
  | e2008 => "E2008"
  | e2009 => "E2009"
  | e2010 => "E2010"
  | e2011 => "E2011"
  | e2012 => "E2012"
  | e2013 => "E2013"
  | e2014 => "E2014"
  | e2015 => "E2015"
  | e2016 => "E2016"
  | e2017 => "E2017"
  | w2001 => "W2001"
  | w2002 => "W2002"
  | w2003 => "W2003"
  | e6001 => "E6001"
  | e6002 => "E6002"
  | e6003 => "E6003"
  | e6004 => "E6004"
  | e6005 => "E6005"
  | e6006 => "E6006"
  | e6007 => "E6007"
  | e6008 => "E6008"
  | e6009 => "E6009"
  | e6010 => "E6010"

/-- What a code means, in one line. -/
def summary : ErrorCode → String
  | e2001 => "the operator or callee does not name a function"
  | e2002 => "more inputs were given than the function declares"
  | e2003 => "a required input was not given"
  | e2004 => "an input does not have the type the function expects"
  | e2005 => "a structure with abstract functions cannot declare inputs"
  | e2006 => "a structure with abstract functions cannot also implement functions"
  | e2007 => "a function of an implemented interface is missing"
  | e2008 => "only interfaces can be implemented"
  | e2009 => "the name is not defined in scope"
  | e2010 => "the borrowed name is not shared"
  | e2011 => "two inputs have the same name"
  | e2012 => "required inputs must come before optional ones"
  | e2013 => "the value does not have the declared type"
  | e2014 => "a condition must be boolean"
  | e2015 => "a structure with abstract functions cannot be created"
  | e2016 => "the type name is not defined in scope"
  | e2017 => "this part of the program could not be parsed"
  | w2001 => "operators of different kinds are evaluated left to right"
  | w2002 => "the same alias is given twice"
  | w2003 => "aliases differing only by case are easy to confuse"
  | e6001 => "no function was found to evaluate"
  | e6002 => "the name has no value"
  | e6003 => "an unparsable part of the program was evaluated"
  | e6004 => "stack size exceeded"
  | e6005 => "a value was expected but the stack was empty"
  | e6006 => "division by zero"
  | e6007 => "a condition evaluated to something other than a boolean"
  | e6008 => "an input has no value"
  | e6009 => "the stream has not produced a value yet"
  | e6010 => "a block without statements has no value"

/-- Whether the analysis reports the code. -/
def isConflict (c : ErrorCode) : Bool := (c.text.toList.drop 1).head? == some '2'

/-- Whether a running program reports the code. -/
def isException (c : ErrorCode) : Bool := (c.text.toList.drop 1).head? == some '6'

/-- Whether the code never stops a program from running. -/
def isWarning (c : ErrorCode) : Bool := c.text.toList.head? == some 'W'

/-- The warnings, one by one. -/
theorem isWarning_eq (c : ErrorCode) :
    c.isWarning = decide (c = w2001 ∨ c = w2002 ∨ c = w2003) := by
  cases c <;> decide

/-- Reads a code in either case, with blanks around it. -/
def ofText? (s : String) : Option ErrorCode :=
  all.find? fun c => c.text == Text.asciiUpper (Text.trimmed s)

end ErrorCode

end Arbor
