import Wmail.Rfc822.ThreadBases
import Wmail.Rfc822.ThreadDummies
import Wmail.Rfc2045.ChunkCuts
import Wmail.Maildir.FilterQuoting
import Wmail.Maildir.FilterList
import Wmail.Rfc2045.Rfc2646reply
import Wmail.Rfc2045.Rfc2646rewrap
import Wmail.Rfc2045.Rfc2646fwd
import Wmail.Cgi.FormRoundTrip
import Wmail.Authlib.AuthReply
import Wmail.Sqwebmail.HtmlSafety
import Wmail.Sqwebmail.AddressbookMap
import Wmail.Pcp.NewEvent
import Wmail.Pcp.SessionAccess
import Wmail.Pcp.SessionTimes
import Wmail.Gpglib.SignedContent
import Wmail.Gpglib.QuotedSignature
import Wmail.Gpglib.Mimegpgheader
import Wmail.Rfc822.ThreadOrder
import Wmail.Rfc822.BaseSubjects
import Wmail.Rfc822.ParserPasses
import Wmail.Rfc822.EncodedShape
import Wmail.Rfc822.WrappedLines
import Wmail.Rfc2045.ReplyCc
import Wmail.Sqwebmail.FilterDisplay
import Wmail.Sqwebmail.FlowedHtml
import Wmail.Rfc2045.NestedBoundaries
import Wmail.Rfc2045.Rewrite
import Wmail.Rfc2045.WrapBounds
import Wmail.Rfc2045.AttachmentName
import Wmail.Rfc2045.Prescan
import Wmail.Pcp.CalendarFrame
import Wmail.Pcp.CalendarConflicts
import Wmail.Pcp.CalendarHolds
import Wmail.Maildir.Maildirsearch
import Wmail.Unicode.Gb2312
import Wmail.Rfc2045.TextSection
import Wmail.Maildir.FolderIndex
import Wmail.Pcp.Cleanup
import Wmail.Pcp.Acl
import Wmail.Pcp.Authtoken
import Wmail.Maildir.DeletionQuota
import Wmail.Authlib.CramSound
import Wmail.Authlib.SaslBase64
import Wmail.Sqwebmail.HtmlEntities
import Wmail.Authlib.SqlText
import Wmail.Maildir.SaveQuota
import Wmail.Sqwebmail.HtmlExact
import Wmail.Sqwebmail.NicknameExpansion
import Wmail.Pcp.ListRange
import Wmail.Pcp.Occurrences
import Wmail.Pcp.HeaderDownload
import Wmail.Pcp.Timers
import Wmail.Pcp.ConflictReply
