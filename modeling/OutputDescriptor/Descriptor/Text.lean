import OutputDescriptor.Checksum
import OutputDescriptor.Descriptor.Parser
import OutputDescriptor.Token.Lexer

/-!
Reading descriptors from texts with or without a checksum, and writing them with one.
-/

namespace OutputDescriptor

/-- Why a text is no descriptor. -/
inductive DescriptorError
  | checksum (error : ChecksumError)
  | lex (error : LexError)
  | parse (error : ParseError)
deriving DecidableEq

def DescriptorError.message : DescriptorError → String
  | checksum error => error.message
  | lex error => error.message
  | parse error => error.message

namespace Descriptor

/-- Reads a text without a checksum. -/
def parseBody (text : List Char) : Except DescriptorError Descriptor := do
  let tokens ← (tokenize text).mapError .lex
  (ofTokens tokens).mapError .parse

/-- Reads a text; a checksum, where there is one, has to be right. -/
def parse (text : List Char) : Except DescriptorError Descriptor := do
  parseBody (← (Checksum.verify text).mapError .checksum)

/-- The written form followed by its checksum. -/
def checkedText (descriptor : Descriptor) : Except ChecksumError (List Char) := do
  let text := descriptor.text
  .ok (text ++ '#' :: (← Checksum.of text))

end Descriptor

end OutputDescriptor
