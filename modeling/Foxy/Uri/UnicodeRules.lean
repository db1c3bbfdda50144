import Foxy.X3

/-!
# Foxy.Uri.UnicodeRules

The rules of `foxy/uri.hpp` over `char32_t`, in the order of the source
(`foxy::uri::unicode`). They are a second copy of the rules over `char`, written
with the primitives of X3's `unicode` encoding.

The tables of that encoding are not part of the repository, so its classes are a
parameter of the rules.
-/

namespace Foxy

namespace X3

instance : CodeUnit UInt32 := ⟨UInt32.toNat⟩

/-- The classes of the `unicode` encoding. -/
structure UnicodeClasses where
  isAlpha : UInt32 → Bool
  isDigit : UInt32 → Bool
  isXdigit : UInt32 → Bool

namespace UnicodeClasses

variable (cls : UnicodeClasses)

/-- `x3::unicode::alpha`. -/
def alpha : Peg UInt32 := Peg.satisfy cls.isAlpha

/-- `x3::unicode::digit`. -/
def digit : Peg UInt32 := Peg.satisfy cls.isDigit

/-- `x3::unicode::xdigit`. -/
def xdigit : Peg UInt32 := Peg.satisfy cls.isXdigit

end UnicodeClasses

end X3

namespace Uri.Unicode

open Peg X3

variable (cls : UnicodeClasses)

/-- `sub-delims = "!" / "$" / "&" / "'" / "(" / ")" / "*" / "+" / "," / ";" / "="`. -/
def subDelims : Peg UInt32 := charOf "!$&'()*+,;="

/-- `gen-delims = ":" / "/" / "?" / "#" / "[" / "]" / "@"`. -/
def genDelims : Peg UInt32 := charOf ":/?#[]@"

/-- `reserved = gen-delims / sub-delims`. -/
def reserved : Peg UInt32 := alt genDelims subDelims

/-- `unreserved = ALPHA / DIGIT / "-" / "." / "_" / "~"`. -/
def unreserved : Peg UInt32 := alt (alt cls.alpha cls.digit) (charOf "-._~")

/-- `pct-encoded = "%" HEXDIG HEXDIG`. -/
def pctEncoded : Peg UInt32 := seq (seq (lit "%") cls.xdigit) cls.xdigit

/-- `pchar = unreserved / pct-encoded / sub-delims / ":" / "@"`. -/
def pchar : Peg UInt32 :=
  alt (alt (alt (unreserved cls) (pctEncoded cls)) subDelims) (charOf ":@")

/-- `query = *( pchar / "/" / "?" )`. -/
def query : Peg UInt32 := star (alt (pchar cls) (charOf "/?"))

/-- `fragment = *( pchar / "/" / "?" )`. -/
def fragment : Peg UInt32 := star (alt (pchar cls) (charOf "/?"))

/-- `segment = *pchar`. -/
def segment : Peg UInt32 := star (pchar cls)

/-- `segment-nz = 1*pchar`. -/
def segmentNz : Peg UInt32 := plus (pchar cls)

/-- `segment-nz-nc = 1*( unreserved / pct-encoded / sub-delims / "@" )`. -/
def segmentNzNc : Peg UInt32 :=
  plus (alt (alt (alt (unreserved cls) (pctEncoded cls)) subDelims) (charOf "@"))

/-- `path-empty = 0<pchar>`. -/
def pathEmpty : Peg UInt32 := times 0 (pchar cls)

/-- `path-rootless = segment-nz *( "/" segment )`. -/
def pathRootless : Peg UInt32 := seq (segmentNz cls) (star (seq (charOf "/") (segment cls)))

/-- `path-noscheme = segment-nz-nc *( "/" segment )`. -/
def pathNoscheme : Peg UInt32 := seq (segmentNzNc cls) (star (seq (charOf "/") (segment cls)))

/-- `path-absolute = "/" [ segment-nz *( "/" segment ) ]`. -/
def pathAbsolute : Peg UInt32 :=
  seq (charOf "/") (opt (seq (segmentNz cls) (star (seq (charOf "/") (segment cls)))))

/-- `path-abempty = *( "/" segment )`. -/
def pathAbempty : Peg UInt32 := star (seq (charOf "/") (segment cls))

/-- `path = path-abempty / path-absolute / path-noscheme / path-rootless / path-empty`. -/
def path : Peg UInt32 :=
  alt (alt (alt (alt (pathAbempty cls) (pathAbsolute cls)) (pathNoscheme cls)) (pathRootless cls))
    (pathEmpty cls)

/-- `reg-name = *( unreserved / pct-encoded / sub-delims )`. -/
def regName : Peg UInt32 := star (alt (alt (unreserved cls) (pctEncoded cls)) subDelims)

/-- `dec-octet`, the alternatives from the longest numeral to the shortest. -/
def decOctet : Peg UInt32 :=
  alt (alt (alt (alt
    (seq (lit "25") (charOf "0-5"))
    (seq (seq (lit "2") (charOf "0-4")) cls.digit))
    (seq (lit "1") (times 2 cls.digit)))
    (seq (charOf "1-9") cls.digit))
    cls.digit

/-- `IPv4address = dec-octet "." dec-octet "." dec-octet "." dec-octet`. -/
def ipV4Address : Peg UInt32 :=
  seq (seq (seq (seq (seq (seq (decOctet cls) (lit ".")) (decOctet cls)) (lit ".")) (decOctet cls))
    (lit ".")) (decOctet cls)

/-- `h16 = 1*4HEXDIG`. -/
def h16 : Peg UInt32 := between 1 4 cls.xdigit

/-- `ls32 = ( h16 ":" h16 ) / IPv4address`. -/
def ls32 : Peg UInt32 := alt (seq (seq (h16 cls) (lit ":")) (h16 cls)) (ipV4Address cls)

/-- `IPv6address`, the nine alternatives of the source. -/
def ipV6Address : Peg UInt32 :=
  alt (alt (alt (alt (alt (alt (alt (alt
    -- 6( h16 ":" ) ls32
    (seq (times 6 (seq (h16 cls) (lit ":"))) (ls32 cls))
    -- "::" 5( h16 ":" ) ls32
    (seq (seq (lit "::") (times 5 (seq (h16 cls) (lit ":")))) (ls32 cls)))
    -- [ h16 ] "::" 4( h16 ":" ) ls32
    (seq (seq (seq (opt (h16 cls)) (lit "::")) (times 4 (seq (h16 cls) (lit ":")))) (ls32 cls)))
    -- [ *1( h16 ":" ) h16 ] "::" 3( h16 ":" ) ls32
    (seq (seq (seq (opt (seq (between 0 1 (seq (h16 cls) (lit ":"))) (h16 cls))) (lit "::"))
      (times 3 (seq (h16 cls) (lit ":")))) (ls32 cls)))
    -- [ *2( h16 ":" ) h16 ] "::" 2( h16 ":" ) ls32
    (seq (seq (opt (seq (h16 cls) (between 0 2 (seq (lit ":") (h16 cls))))) (lit "::"))
      (seq (ls32 cls) (times 2 (seq (lit ":") (h16 cls))))))
    -- [ *3( h16 ":" ) h16 ] "::" h16 ":" ls32
    (seq (seq (seq (seq (opt (seq (h16 cls) (between 0 3 (seq (lit ":") (h16 cls))))) (lit "::"))
      (h16 cls)) (lit ":")) (ls32 cls)))
    -- [ *4( h16 ":" ) h16 ] "::" ls32
    (seq (seq (opt (seq (h16 cls) (between 0 4 (seq (lit ":") (h16 cls))))) (lit "::")) (ls32 cls)))
    -- [ *5( h16 ":" ) h16 ] "::" h16
    (seq (seq (opt (seq (h16 cls) (between 0 5 (seq (lit ":") (h16 cls))))) (lit "::")) (h16 cls)))
    -- [ *6( h16 ":" ) h16 ] "::"
    (seq (opt (seq (h16 cls) (between 0 6 (seq (lit ":") (h16 cls))))) (lit "::"))

/-- `IPvFuture = "v" 1*HEXDIG "." 1*( unreserved / sub-delims / ":" )`. -/
def ipVfuture : Peg UInt32 :=
  seq (seq (seq (lit "v") (plus cls.xdigit)) (lit "."))
    (plus (alt (alt (unreserved cls) subDelims) (lit ":")))

/-- `IP-literal = "[" ( IPv6address / IPvFuture  ) "]"`. -/
def ipLiteral : Peg UInt32 := seq (seq (lit "[") (alt (ipV6Address cls) (ipVfuture cls))) (lit "]")

/-- `port = *DIGIT`. -/
def port : Peg UInt32 := star cls.digit

/-- `host = IP-literal / IPv4address / reg-name`. -/
def host : Peg UInt32 := alt (alt (ipLiteral cls) (ipV4Address cls)) (regName cls)

/-- `userinfo = *( unreserved / pct-encoded / sub-delims / ":" )`. -/
def userinfo : Peg UInt32 :=
  star (alt (alt (alt (unreserved cls) (pctEncoded cls)) subDelims) (lit ":"))

/-- `authority = [ userinfo "@" ] host [ ":" port ]`. -/
def authority : Peg UInt32 :=
  seq (seq (opt (seq (userinfo cls) (lit "@"))) (host cls)) (opt (seq (lit ":") (port cls)))

/-- `scheme`, with the character set as the source spells it. -/
def scheme : Peg UInt32 := seq cls.alpha (star (alt (alt cls.alpha cls.digit) (charOf "+-.")))

/-- `relative-part = "//" authority path-abempty / path-absolute / path-noscheme / path-empty`. -/
def relativePart : Peg UInt32 :=
  alt (alt (alt (seq (seq (lit "//") (authority cls)) (pathAbempty cls)) (pathAbsolute cls))
    (pathNoscheme cls)) (pathEmpty cls)

/-- `relative-ref = relative-part [ "?" query ] [ "#" fragment ]`. -/
def relativeRef : Peg UInt32 :=
  seq (seq (relativePart cls) (opt (seq (lit "?") (query cls)))) (opt (seq (lit "#") (fragment cls)))

/-- `hier-part = "//" authority path-abempty / path-absolute / path-rootless / path-empty`. -/
def hierPart : Peg UInt32 :=
  alt (alt (alt (seq (seq (lit "//") (authority cls)) (pathAbempty cls)) (pathAbsolute cls))
    (pathRootless cls)) (pathEmpty cls)

/-- `URI = scheme ":" hier-part [ "?" query ] [ "#" fragment ]`. -/
def uri : Peg UInt32 :=
  seq (seq (seq (seq (scheme cls) (lit ":")) (hierPart cls)) (opt (seq (lit "?") (query cls))))
    (opt (seq (lit "#") (fragment cls)))

/-- `absolute-URI = scheme ":" hier-part [ "?" query ]`. -/
def absoluteUri : Peg UInt32 :=
  seq (seq (seq (scheme cls) (lit ":")) (hierPart cls)) (opt (seq (lit "?") (query cls)))

/-- `URI-reference = URI / relative-ref`. -/
def uriReference : Peg UInt32 := alt (uri cls) (relativeRef cls)

end Uri.Unicode

end Foxy
